import Ownership.Proofs.ChainInstances
import Ownership.Proofs.ChainTests

namespace Ownership

namespace Place

theorem eq_or_smaller_of_covers {p q : Place} (covers : p.covers q = true) : p = q ∨ sizeOf p < sizeOf q := by
  induction q with
  | field base f ih =>
    simp only [Place.covers, Bool.or_eq_true, beq_iff_eq] at covers
    rcases covers with rfl | covers
    · exact .inl rfl
    · have inner : sizeOf p ≤ sizeOf base := by
        rcases ih covers with rfl | smaller
        · exact Nat.le_refl _
        · exact Nat.le_of_lt smaller
      rw [Place.field.sizeOf_spec]
      exact .inr (by omega)
  | _ =>
    simp only [Place.covers, beq_iff_eq] at covers
    exact .inl covers

theorem covers_antisymm {p q : Place} (first : p.covers q = true) (second : q.covers p = true) : p = q := by
  rcases eq_or_smaller_of_covers first with same | smaller
  · exact same
  · rcases eq_or_smaller_of_covers second with same | smaller'
    · exact same.symm
    · omega

end Place

namespace Lien

/-- The liens are of one kind; they have the same variable, or places that cover each other. -/
inductive Alike : Lien → Lien → Prop where
  | our : Alike our our
  | shared {ps qs : List Place} : placesCovered ps qs = true → placesCovered qs ps = true →
    Alike (shared ps) (shared qs)
  | leased {ps qs : List Place} : placesCovered ps qs = true → placesCovered qs ps = true →
    Alike (leased ps) (leased qs)
  | var (v : Variable) : Alike (var v) (var v)
  | infer (i : InferIndex) : Alike (infer i) (infer i)

theorem alike_of_sub {l m : Lien} (first : l.sub m = true) (second : m.sub l = true) : l.Alike m := by
  cases l <;> cases m <;> simp only [sub, Bool.false_eq_true, decide_eq_true_eq] at first second
  case our.our => exact .our
  case shared.shared => exact .shared first second
  case leased.leased => exact .leased first second
  case var.var => exact first ▸ .var _
  case infer.infer => exact first ▸ .infer _

def lends : Lien → Bool
  | shared _ => true
  | leased _ => true
  | _ => false

theorem eq_of_sub {l m : Lien} (below : l.sub m = true) (unlent : m.lends = false) : l = m := by
  cases l <;> cases m <;> simp_all [sub, lends]

end Lien

namespace Chain

theorem alike_of_sub {a b : Chain} (first : a.sub b = true) (second : b.sub a = true) :
    List.Forall₂ Lien.Alike a b := by
  induction a generalizing b with
  | nil =>
    cases b with
    | nil => exact .nil
    | cons m b => simp [sub] at second
  | cons l a ih =>
    cases b with
    | nil => simp [sub] at first
    | cons m b =>
      simp only [sub, Bool.and_eq_true] at first second
      exact .cons (Lien.alike_of_sub first.1 second.1) (ih first.2 second.2)

theorem eq_of_sub {a b : Chain} (proper : b.Proper) (below : a.sub b = true)
    (unlent : ∀ l ∈ b, l.lends = false) : a = b ∨ a = [] ∧ b = [.our] := by
  rcases forall₂_of_sub proper below with pairs | ⟨rfl, l, rfl, copy⟩
  · refine .inl ?_
    clear proper below
    induction pairs with
    | nil => rfl
    | cons first _ ih =>
      rw [List.forall_mem_cons] at unlent
      rw [Lien.eq_of_sub first unlent.1, ih unlent.2]
  · refine .inr ⟨rfl, ?_⟩
    have spared := unlent l (List.mem_singleton_self l)
    cases l <;> simp_all [Lien.lends, Lien.isCopy]

end Chain

def Perm.lends : Perm → Bool
  | .shared _ => true
  | .leased _ => true
  | .apply l r => l.lends || r.lends
  | _ => false

theorem Lien.lends_toPerm (l : Lien) : l.toPerm.lends = l.lends := by cases l <;> rfl

theorem Chain.lends_toPerm (c : Chain) : c.toPerm.lends = c.any Lien.lends := by
  have folded (liens : List Lien) (p : Perm) :
      (liens.foldl (fun p l => .apply p l.toPerm) p).lends = (p.lends || liens.any Lien.lends) := by
    induction liens generalizing p with
    | nil => simp
    | cons l liens ih => rw [List.foldl_cons, ih, Perm.lends, l.lends_toPerm, List.any_cons, Bool.or_assoc]
  cases c with
  | nil => rfl
  | cons l liens => rw [toPerm, folded, l.lends_toPerm, List.any_cons]

namespace Predicate

def IsOwn (p : Predicate) : Prop := p = .owned ∨ p = .lent

theorem IsOwn.ofShared {p : Predicate} (own : p.IsOwn) : p.ofShared = p.isDisjunctive := by
  rcases own with rfl | rfl <;> rfl

end Predicate

namespace Goal

def IsOwn : ⦃sh : Shape⦄ → Goal sh → Prop
  | _, .holds _ p _ => p.IsOwn
  | _, .tyHolds _ p _ => p.IsOwn
  | _, .permHolds _ p _ => p.IsOwn
  | _, .inferHolds _ _ p => p.IsOwn
  | _, .evidence _ _ p => p.IsOwn
  | _, _ => False

end Goal

/-- Owned, or not lent, is only what is not borrowed from places. Where `all` is to be told there is an answer. -/
def Perm.Spares (all : Prop) (p : Predicate) (q : Perm) (r : Except Failure Bool) : Prop :=
  (all → ∃ b, r = .ok b) ∧ (r = .ok (!p.isDisjunctive) → q.lends = false)

namespace Session

def Spares (s : Session) (all : Prop) : ⦃sh : Shape⦄ → Goal sh → Except Failure sh.Value → Prop
  | .truth, .permHolds _ p q, r => q.Spares all p r
  | .truth, .holds _ p (.perm q), r => q.Spares all p r
  | .truth, _, r => all → ∃ b, r = .ok b
  | .evidence, .evidence _ i p, r => all → ∃ v, s.inferVars[i]? = some v ∧ r = .ok (v.evidence p)
  | _, _, _ => True

def sparingContract (s : Session) (all : Prop) : Contract where
  Sound w := w.session.inferVars = s.inferVars
  Later _ _ := True
  Post _ g _ r _ := s.Spares all g r
  Debt := Empty
  Owed _ _ := False
  Paid _ _ := True
  Waits := ¬ all
  later_refl _ := trivial
  later_trans _ _ := trivial
  post_later post _ := post
  paid_later _ _ := trivial
  alike := by
    rintro _ _ _ ⟨_, _, _, _, rfl⟩ sound
    exact ⟨sound, trivial⟩
  owed_alike _ := id

/-- What is known of its inference variables is enough to test the permission. -/
inductive Informed (s : Session) (p : Predicate) : Perm → Prop where
  | definite {q : Perm} : q.Definite → Informed s p q
  | apply {l r : Perm} : Informed s p l → Informed s p r → Informed s p (.apply l r)
  | decided {i : InferIndex} {v : InferVar} {b : Bool} : s.inferVars[i]? = some v → v.evidence p = .decided b →
    Informed s p (.infer i)
  | bounded {i : InferIndex} {v : InferVar} {b : Bound} {q : Perm} : s.inferVars[i]? = some v →
    v.evidence p = .bounded b → b.term = .perm q → Informed s p q → Informed s p (.infer i)

def PartsAsked (s : Session) (all : Prop) (A : Asks) (e : Env) (p : Predicate) : Perm → Prop
  | .apply l r => ∀ w, (s.sparingContract all).Sound w → A (.permHolds e p l) w ∧ A (.permHolds e p r) w
  | .infer i => ∀ w, (s.sparingContract all).Sound w → A (.inferHolds e i p) w
  | .error _ => ¬ all
  | _ => True

section Tests

variable {s : Session} {all : Prop} {A : Asks} {owing : Prop} {w : Moment} {e : Env} {p : Predicate}

theorem meets_permHolds (own : p.IsOwn) {q : Perm} (parts : s.PartsAsked all A e p q) :
    (Rules.rule .truth (.permHolds e p q)).Meets (s.sparingContract all) A owing
      (fun r _ => s.Spares all (.permHolds e p q) r) w := by
  have known (b : Bool) (unlent : q.lends = false) :
      (pure b : Prog Bool).Meets (s.sparingContract all) A owing (fun r _ => q.Spares all p r) w :=
    fun _ _ => ⟨fun _ => ⟨b, rfl⟩, fun _ => unlent⟩
  have lent : (pure p.isDisjunctive : Prog Bool).Meets (s.sparingContract all) A owing
      (fun r _ => q.Spares all p r) w := by
    refine fun _ _ => ⟨fun _ => ⟨_, rfl⟩, fun same => ?_⟩
    cases p <;> cases same
  cases q with
  | my | our | var v => exact known _ rfl
  | shared ps =>
    rw [← own.ofShared] at lent
    exact lent
  | leased ps => rcases own with rfl | rfl <;> exact lent
  | error r => exact fun _ _ => ⟨fun total => (parts total).elim, nofun⟩
  | infer i =>
    exact .relay fun v leads => ⟨parts v leads.sound, nofun, fun r u _ post => ⟨post, fun _ => rfl⟩⟩
  | apply l r =>
    have asked (v : Moment) (sound : (s.sparingContract all).Sound v) :
        ∀ g ∈ [Goal.permHolds e p l, .permHolds e p r], A g v := by
      simpa using parts v sound
    suffices raced : (Prog.raced p.isDisjunctive [Goal.permHolds e p l, .permHolds e p r]).Meets
        (s.sparingContract all) A owing (fun x _ => (Perm.apply l r).Spares all p x) w by
      rcases own with rfl | rfl <;> exact raced
    refine .raced fun v leads => ⟨asked v leads.sound, fun x u _ ended => ⟨fun total => ?_, ?_⟩⟩
    · cases x with
      | ok b => exact ⟨b, rfl⟩
      | error f =>
        obtain ⟨a, member, post⟩ := ended
        obtain ⟨g, listed, rfl⟩ := List.mem_map.mp member
        rcases List.mem_pair.mp listed with rfl | rfl <;> exact post.1 total
    · rintro rfl
      rcases ended with ⟨wrong, _⟩ | ⟨_, posts⟩
      · cases p <;> cases wrong
      · have spared (q : Perm) (member : (Goal.permHolds e p q, v) ∈
            [Goal.permHolds e p l, .permHolds e p r].map (·, v)) : q.lends = false :=
          (posts _ member).2 rfl
        rw [Perm.lends, spared l (by simp), spared r (by simp), Bool.or_self]

theorem sparing_noted {sh : Shape} {g : Goal sh} (meets : (Rules.rule sh g).Meets (s.sparingContract all) A owing
    (fun r _ => s.Spares all g r) w) :
    (Rules.answer sh g).Meets (s.sparingContract all) A owing (fun r _ => s.Spares all g r) w :=
  .noted (meets.mono fun _ _ leads post => ⟨⟨trivial, leads.sound⟩, post⟩) fun post _ => post

theorem sure_of_meets {sh : Shape} {g : Goal sh} (meets : ∀ w, (s.sparingContract all).Sound w →
    (Rules.rule sh g).Meets (s.sparingContract all) (Rules.answer.Settles (s.sparingContract all)) (sh = .unit)
      (fun r _ => s.Spares all g r) w) : (s.sparingContract all).Sure g :=
  fun w sound => .intro sound (sparing_noted (meets w sound))

theorem sure_evidence {i : InferIndex} {v : InferVar} (found : s.inferVars[i]? = some v)
    (known : (v.evidence p).isKnown = true) : (s.sparingContract True).Sure (.evidence e i p) := by
  refine sure_of_meets fun w sound => Prog.Meets.perform_bind (a := Action.inferVar i) fun w' leads => ?_
  have read : (Action.inferVar i).exec w'.session = (.ok v, w'.session) := by
    rw [Action.exec_inferVar, leads.sound, found]
    rfl
  have same : w'.after (fun s => ((Action.inferVar i).exec s).2) = w' := by
    simp only [Moment.after, Action.exec_inferVar]
  rw [same, read]
  refine ⟨.refl leads.sound, ?_, fun _ => .inl⟩
  change (if (v.evidence p).isKnown = true then pure (v.evidence p) else _ : Prog Evidence).Meets _ _ _ _ _
  rw [if_pos known]
  exact fun _ _ _ => ⟨v, found, rfl⟩

theorem sure_inferHolds {i : InferIndex} {v : InferVar} (found : s.inferVars[i]? = some v)
    (known : (v.evidence p).isKnown = true)
    (bound : ∀ b, v.evidence p = .bounded b → (s.sparingContract True).Sure (.holds e p b.term)) :
    (s.sparingContract True).Sure (.inferHolds e i p) := by
  refine sure_of_meets fun w sound => .bind (Q := fun r _ => r = .ok (v.evidence p)) ?_ ?_ ?_
  · refine .ask fun w' leads => ⟨sure_evidence found known w' leads.sound, nofun, fun r w'' _ post => ?_⟩
    obtain ⟨v', found', rfl⟩ := post trivial
    cases found.symm.trans found'
    rfl
  · rintro evidence w' _ same
    cases same
    cases told : v.evidence p with
    | decided b => exact fun _ _ _ => ⟨b, rfl⟩
    | unknown => simp [told, Evidence.isKnown] at known
    | bounded b =>
      refine .relay fun u leads => ⟨bound b told u leads.sound, nofun, fun r u' _ post total => ?_⟩
      cases term : b.term with
      | perm q =>
        rw [term] at post
        exact post.1 total
      | _ =>
        rw [term] at post
        exact post total
  · exact fun f w' _ wrong => nomatch wrong

theorem sure_holds {q : Perm} (sure : (s.sparingContract all).Sure (.permHolds e p q)) :
    (s.sparingContract all).Sure (.holds e p (.perm q)) :=
  sure_of_meets fun _ _ => .relay fun v leads => ⟨sure v leads.sound, nofun, fun _ _ _ post => post⟩

theorem sure_permHolds (own : p.IsOwn) {q : Perm} (definite : q.Definite) :
    (s.sparingContract True).Sure (.permHolds e p q) := by
  induction q with
  | apply l r left right =>
    exact sure_of_meets fun _ _ => meets_permHolds own fun v sound =>
      ⟨left definite.1 v sound, right definite.2 v sound⟩
  | infer i | error r => exact definite.elim
  | _ => exact sure_of_meets fun _ _ => meets_permHolds own trivial

theorem Informed.sure (own : p.IsOwn) {q : Perm} (informed : s.Informed p q) :
    (s.sparingContract True).Sure (.permHolds e p q) := by
  have variable_ {i : InferIndex} (sure : (s.sparingContract True).Sure (.inferHolds e i p)) :
      (s.sparingContract True).Sure (.permHolds e p (.infer i)) :=
    sure_of_meets fun _ _ => meets_permHolds own sure
  induction informed with
  | definite definite => exact sure_permHolds own definite
  | apply _ _ left right =>
    exact sure_of_meets fun _ _ => meets_permHolds own fun v sound => ⟨left v sound, right v sound⟩
  | decided found told =>
    refine variable_ (sure_inferHolds found (by rw [told]; rfl) fun b bounded => ?_)
    rw [told] at bounded
    cases bounded
  | bounded found told term _ ih =>
    refine variable_ (sure_inferHolds found (by rw [told]; rfl) fun b bounded => ?_)
    rw [told] at bounded
    cases bounded
    rw [term]
    exact sure_holds ih

theorem Informed.answers (env : Env) (own : p.IsOwn) {q : Perm} (informed : s.Informed p q) :
    ∃ b, s.Answers (.holds env p (.perm q)) b := by
  obtain ⟨r, last, _, _, yields, _, post, _⟩ := Goal.yields_of_settles (C := s.sparingContract True)
    (fun waits => waits trivial) rfl fun w leads => sure_holds (e := env) (informed.sure own) w leads.sound
  have spared : q.Spares True p r := post
  obtain ⟨b, rfl⟩ := spared.1 trivial
  exact ⟨b, last, yields⟩

theorem verified_own : Rules.answer.Verified (s.sparingContract False) fun _ g _ => g.IsOwn := by
  intro sh g w sound own
  refine sparing_noted ?_
  have raced (decisive : Bool) {tests : List (Goal .truth)} {Q : Except Failure Bool → Prop}
      (asked : ∀ g ∈ tests, g.IsOwn) (any : ∀ r, Q r) :
      (Prog.raced decisive tests).Meets (s.sparingContract False) (fun _ g _ => g.IsOwn) (Shape.truth = .unit)
        (fun r _ => Q r) w :=
    .raced fun _ _ => ⟨asked, fun r _ _ _ => any r⟩
  cases g with
  | holds e p t =>
    cases t with
    | perm q => exact .relay fun _ _ => ⟨own, nofun, fun _ _ _ post => post⟩
    | ty t => exact .relay fun _ _ => ⟨own, nofun, fun _ _ _ _ => False.elim⟩
    | place q | error r => exact fun _ _ => False.elim
  | permHolds e p q =>
    refine meets_permHolds own ?_
    cases q with
    | apply l r => exact fun _ _ => ⟨own, own⟩
    | infer i => exact fun _ _ => own
    | error r => exact id
    | _ => trivial
  | tyHolds e p t =>
    have arguments (args : List Term) : ∀ g ∈ args.map (Goal.holds e p), g.IsOwn :=
      List.forall_mem_map.mpr fun _ _ => own
    cases t with
    | perm q t =>
      have both : ∀ g ∈ [Goal.permHolds e p q, .tyHolds e p t], g.IsOwn := by simpa using ⟨own, own⟩
      rcases own with rfl | rfl <;> exact raced _ both fun _ => False.elim
    | named name args =>
      rcases own with rfl | rfl <;> exact raced _ (arguments args) fun _ => False.elim
    | infer i => exact .relay fun _ _ => ⟨own, nofun, fun _ _ _ _ => False.elim⟩
    | var v | never | error r => exact fun _ _ => False.elim
  | inferHolds e i p =>
    refine .bind (Q := fun _ _ => True) (.ask fun _ _ => ⟨own, nofun, fun _ _ _ _ => trivial⟩) ?_
      fun _ _ _ _ => False.elim
    rintro (b | b | _) v leads _
    · exact fun _ _ => False.elim
    · refine .relay fun _ _ => ⟨own, nofun, fun _ _ _ _ => False.elim⟩
    · exact fun _ _ => False.elim
  | evidence e i p =>
    refine .inferVar_bind (fun v var leads _ => ?_) fun _ _ => False.elim
    dsimp only
    split
    · exact fun _ _ => False.elim
    · refine fun _ _ => ⟨id, fun _ => .inferVar_bind (fun _ _ _ _ => ?_) fun _ _ => False.elim⟩
      exact fun _ _ => False.elim
  | _ => exact own.elim

end Tests

end Session

namespace Session

variable {s : Session} {env : Env}

theorem Answers.unlent {p : Predicate} {q : Perm} (own : p.IsOwn)
    (answers : s.Answers (.holds env p (.perm q)) (!p.isDisjunctive)) : q.lends = false := by
  obtain ⟨last, yields⟩ := answers
  obtain ⟨_, _, _, post⟩ := yields.post (verified_own (s := s)) rfl fun _ _ => own
  have spared : q.Spares False p (.ok (!p.isDisjunctive)) := post
  exact spared.2 rfl

theorem Answers.eq_of_sub {p : Predicate} {a b : Chain} (own : p.IsOwn) (proper : b.Proper) (below : a.sub b = true)
    (answers : s.Answers (.holds env p (.perm b.toPerm)) (!p.isDisjunctive)) : a = b ∨ a = [] ∧ b = [.our] := by
  have unlent := answers.unlent own
  rw [Chain.lends_toPerm, List.any_eq_false] at unlent
  exact Chain.eq_of_sub proper below fun l member => by simpa using unlent l member

theorem answers_my (s : Session) (env : Env) : s.Answers (.holds env .owned (.perm .my)) true ∧
    s.Answers (.holds env .lent (.perm .my)) false := by
  have bare : Term.Bare (.perm .my) := trivial
  rw [answers_true_iff (answers_own env bare (.inl rfl)), answers_false_iff (answers_own env bare (.inr rfl))]
  simp [Predicate.ofMy]

theorem informed_toPerm {p : Predicate} {c : Chain} (known : ∀ i, .infer i ∈ c → s.Informed p (.infer i)) :
    s.Informed p c.toPerm := by
  have each (l : Lien) (member : l ∈ c) : s.Informed p l.toPerm := by
    cases l with
    | infer i => exact known i member
    | _ => exact .definite trivial
  have folded (liens : List Lien) (q : Perm) (informed : s.Informed p q) (all : ∀ l ∈ liens, s.Informed p l.toPerm) :
      s.Informed p (liens.foldl (fun q l => .apply q l.toPerm) q) := by
    induction liens generalizing q with
    | nil => exact informed
    | cons l liens ih =>
      rw [List.forall_mem_cons] at all
      exact ih _ (.apply informed all.1) all.2
  cases c with
  | nil => exact .definite trivial
  | cons l liens =>
    rw [List.forall_mem_cons] at each
    exact folded liens _ each.1 each.2

/-- Covering orders places partially, and chains are preordered by it. What is above something lent is lent, which
is found out as soon as enough is known of its inference variables, and what is below something owned is owned. -/
theorem chains_ordered (s : Session) (env : Env) :
    IsPartialOrder Place (fun p q => p.covers q = true) ∧
      (∀ a : Chain, a.sub a = true) ∧
      (∀ a b c : Chain, b.Proper → c.Proper → a.sub b = true → b.sub c = true → a.sub c = true) ∧
      (∀ a b : Chain, a.sub b = true → b.sub a = true → List.Forall₂ Lien.Alike a b) ∧
      ∀ a b : Chain, b.Proper → a.sub b = true →
        (s.Answers (.holds env .lent (.perm a.toPerm)) true →
          (∀ v, s.Answers (.holds env .lent (.perm b.toPerm)) v → v = true) ∧
            ((∀ i, .infer i ∈ b → s.Informed .lent (.infer i)) →
              s.Answers (.holds env .lent (.perm b.toPerm)) true)) ∧
          (s.Answers (.holds env .owned (.perm b.toPerm)) true →
            s.Answers (.holds env .owned (.perm a.toPerm)) true) := by
  refine ⟨?_, Chain.sub_self, fun a b c => Chain.sub_trans, fun a b => Chain.alike_of_sub, fun a b proper below => ?_⟩
  · exact {
      refl := Place.covers_self
      trans := fun _ _ _ => Place.covers_trans
      antisymm := fun _ _ => Place.covers_antisymm }
  · refine ⟨fun lent => ?_, fun owned => ?_⟩
    · have never (v : Bool) (answers : s.Answers (.holds env .lent (.perm b.toPerm)) v) : v = true := by
        by_contra refuted
        rw [Bool.not_eq_true] at refuted
        subst refuted
        rcases answers.eq_of_sub (.inr rfl) proper below with rfl | ⟨rfl, -⟩
        · cases answers.unique lent
        · cases (answers_my s env).2.unique lent
      refine ⟨never, fun known => ?_⟩
      obtain ⟨v, answers⟩ := (informed_toPerm known).answers env (.inr rfl)
      exact never v answers ▸ answers
    · rcases owned.eq_of_sub (.inl rfl) proper below with rfl | ⟨rfl, -⟩
      · exact owned
      · exact (answers_my s env).1

def borrowing : Session :=
  { leasing with
    inferVars := [{ kind := .perm, span := default, home := .root, facts := [(.lent, viewAsShared)] }] }

theorem chains_ordered_borrowing :
    Chain.sub [.our, .infer 0] [.shared [.var owner], .infer 0] = true ∧
      borrowing.Answers (.holds (.root []) .lent (.perm (Chain.toPerm [.our, .infer 0]))) true ∧
      borrowing.Answers (.holds (.root []) .lent (.perm (Chain.toPerm [.shared [.var owner], .infer 0]))) true ∧
      borrowing.Answers (.holds (.root []) .owned (.perm (Chain.toPerm []))) true := by
  obtain ⟨-, -, -, -, order⟩ := chains_ordered borrowing (.root [])
  have lower : borrowing.Answers (.holds (.root []) .lent (.perm (Chain.toPerm [.our, .infer 0]))) true :=
    ⟨_, 40, _, rfl, rfl, rfl, rfl⟩
  have owned : borrowing.Answers (.holds (.root []) .owned (.perm (Chain.toPerm [.our]))) true :=
    ⟨_, 40, _, rfl, rfl, rfl, rfl⟩
  have proper : Chain.Proper [.shared [.var owner], .infer 0] := by simp [Chain.Proper, Lien.isCopy]
  have single : Chain.Proper [.our] := by simp [Chain.Proper]
  refine ⟨rfl, lower, ((order _ _ proper rfl).1 lower).2 fun i member => ?_, (order _ _ single rfl).2 owned⟩
  obtain rfl : i = 0 := by simpa using member
  exact .decided rfl rfl

end Session

end Ownership
