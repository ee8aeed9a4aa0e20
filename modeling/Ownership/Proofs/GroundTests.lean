import Ownership.Proofs.Evaluation
import Ownership.Proofs.Instances
import Ownership.Proofs.Records
import Ownership.Proofs.Verdicts

namespace Ownership

abbrev Prog.Settles {α : Type} (C : Contract) (owing : Prop) (Q : Except Failure α → Moment → Prop) (p : Prog α)
    (w : Moment) : Prop := p.Meets C (Rules.answer.Settles C) owing Q w

def Contract.Sure (C : Contract) {s : Shape} (g : Goal s) : Prop :=
  ∀ w, C.Sound w → Rules.answer.Settles C g w

theorem Contract.sure_of_rule {C : Contract} {sh : Shape} {g : Goal sh}
    (noting : ∀ w s (g : Goal s) r, C.Sound w → C.Leads w (w.noting g r))
    (meets : ∀ w, C.Sound w → (Rules.rule sh g).Settles C (sh = .unit) (C.Post g w) w) : C.Sure g := by
  intro w sound
  refine .intro sound (.noted ((meets w sound).mono fun r v leads post => ?_) C.post_later)
  have next := noting v sh g r leads.sound
  exact ⟨next, C.post_later post next.1⟩

def Tells (P : Prop) (r : Except Failure Bool) : Prop := ∃ b, r = .ok b ∧ (b = true ↔ P)

def Env.Agrees (env e : Env) : Prop := e.assumptions = env.assumptions

theorem Env.Agrees.fork {env e : Env} (agrees : env.Agrees e) : env.Agrees e.fork := agrees

theorem Env.Agrees.assumes {env e : Env} (agrees : env.Agrees e) (v : Variable) (p : Predicate) :
    e.assumes v p = env.assumes v p := by
  unfold Env.assumes
  rw [agrees]

def Term.Ground (arity : TyName → List Kind) (places : List Place) : Term → Prop
  | .ty t => t.Definite arity ∧ t.leases ⊆ places
  | .perm p => p.Definite ∧ p.leases ⊆ places
  | .place p => p ∈ places
  | .error _ => False

variable {arity : TyName → List Kind}

theorem Term.Definite.ground {places : List Place} {k : Kind} {t : Term} (definite : t.Definite arity k)
    (within : t.leases ⊆ places) : t.Ground arity places ∧ t.kind? ≠ some .place := by
  rcases definite.cases with ⟨u, rfl, _, definite⟩ | ⟨q, rfl, _, definite⟩
  · exact ⟨⟨definite, within⟩, nofun⟩
  · exact ⟨⟨definite, within⟩, nofun⟩

theorem Term.ground_arguments {places : List Place} {name : TyName}
    {as bs : List Term} {pair : Term × Term} (lower : Term.Ground arity places (.ty (.named name as)))
    (upper : Term.Ground arity places (.ty (.named name bs))) (member : pair ∈ as.zip bs) :
    (∃ k, pair.1.Definite arity k ∧ pair.2.Definite arity k) ∧
      pair.1.Ground arity places ∧ pair.2.Ground arity places := by
  obtain ⟨k, first, second⟩ := lower.1.zip upper.1 pair member
  have members := List.of_mem_zip member
  exact ⟨⟨k, first, second⟩,
    (first.ground fun _ h => lower.2 (Term.leases_subset_all members.1 h)).1,
    (second.ground fun _ h => upper.2 (Term.leases_subset_all members.2 h)).1⟩

theorem Term.Ground.bare {places : List Place} {t : Term} (ground : t.Ground arity places)
    (kind : t.kind? ≠ some .place) : t.Bare ∧ t.leases ⊆ places := by
  match t with
  | .ty _ => exact ⟨ground.1.bare, ground.2⟩
  | .perm _ => exact ground
  | .place _ => exact (kind rfl).elim

/-- These inference variables, and places. -/
def Lexicon.asking (A : InferIndex → Prop) : Lexicon where
  infer k i := k = .place ∨ A i
  var _ := True
  places := True

section Asking

variable {A : InferIndex → Prop}

theorem Place.in_asking (p : Place) : p.In (.asking A) := by
  induction p with
  | var | error => trivial
  | infer => exact .inl rfl
  | field _ _ ih | index _ ih => exact ih

theorem Perm.Definite.asking {q : Perm} (definite : q.Definite) : q.In (.asking A) := by
  induction q with
  | shared | leased => exact fun p _ => p.in_asking
  | apply _ _ left right => exact ⟨left definite.1, right definite.2⟩
  | infer => exact definite.elim
  | _ => trivial

mutual
theorem Ty.Bare.asking : {t : Ty} → t.Bare → t.In (.asking A)
  | .perm _ _, bare => ⟨bare.1.asking, Ty.Bare.asking bare.2⟩
  | .named _ _, bare => Term.AllBare.asking bare
  | .var _, _ | .never, _ => trivial

theorem Term.AllBare.asking : {ts : List Term} → Term.AllBare ts → Term.AllIn (.asking A) ts
  | [], _ => trivial
  | .ty _ :: _, bare => ⟨Ty.Bare.asking bare.1, Term.AllBare.asking bare.2⟩
  | .perm _ :: _, bare => ⟨Perm.Definite.asking bare.1, Term.AllBare.asking bare.2⟩
end

theorem Term.Bare.asking {t : Term} (bare : t.Bare) : t.In (.asking A) :=
  have all : Term.AllIn (.asking A) [t] := Term.AllBare.asking ⟨bare, trivial⟩
  all.1

theorem Term.in_asking {t : Term} (asked : ∀ i ∈ t.infers, A i) : t.In (.asking A) :=
  t.in_all.imp ⟨fun _ _ _ => trivial, fun _ _ _ => trivial, fun i inside _ _ => .inr (asked i inside), id⟩

end Asking

/-- Where nothing was leased, what is leased comes from the places. -/
def Congruence.leasing (places : List Place) : Congruence where
  place _ _ := True
  perm p q := p.leases = [] → q.leases ⊆ places
  ty t u := t.leases = [] → u.leases ⊆ places
  term t u := t.leases = [] → u.leases ⊆ places
  field _ _ := trivial
  index _ := trivial
  placeError _ := trivial
  my _ := List.nil_subset _
  our _ := List.nil_subset _
  shared _ _ := List.nil_subset _
  leased all none := by
    obtain rfl : _ = [] := none
    cases all
    exact List.nil_subset _
  apply left right none := have ⟨first, second⟩ := List.append_eq_nil_iff.mp none
    List.append_subset.mpr ⟨left first, right second⟩
  permError _ _ := List.nil_subset _
  applied outer inner none := have ⟨first, second⟩ := List.append_eq_nil_iff.mp none
    List.append_subset.mpr ⟨outer first, inner second⟩
  named _ _ _ all none := by
    change Term.leasesAll _ = [] at none
    change Term.leasesAll _ ⊆ _
    induction all with
    | nil => exact List.nil_subset _
    | cons first _ ih =>
      obtain ⟨here, there⟩ := List.append_eq_nil_iff.mp none
      exact List.append_subset.mpr ⟨first here, ih there⟩
  never _ := List.nil_subset _
  tyError _ _ := List.nil_subset _
  ofTy := id
  ofPerm := id
  ofPlace _ _ := List.nil_subset _
  termError _ _ := List.nil_subset _

theorem Substitution.sends_leasing {σ : Substitution} {places : List Place}
    (within : ∀ v t, σ.lookup v = some t → t.leases ⊆ places) : σ.Sends .all (.leasing places) where
  shown _ := id
  itself _ _ _ := ⟨trivial, fun _ => List.nil_subset _, fun _ => List.nil_subset _⟩
  place _ _ _ _ := trivial
  perm v _ _ found _ := within v _ found
  ty v _ _ found _ := within v _ found
  error _ _ _ _ := ⟨trivial, fun _ => List.nil_subset _, fun _ => List.nil_subset _⟩
  infer _ := ⟨trivial, fun _ => List.nil_subset _, fun _ => List.nil_subset _⟩

/-- What a test goes on with: the lower bound of a variable that is to be inferred, or the recorded type of one. -/
inductive Node where
  | infer (i : InferIndex)
  | var (v : Variable)

/-- What is to be inferred in the term is among the nodes, and, if leases are looked through, what it leases from. -/
def Term.Within (deep : Prop) (N : Node → Prop) (t : Term) : Prop :=
  t.In (.asking fun i => N (.infer i)) ∧ (deep → ∀ place ∈ t.leases, ∀ x ∈ place.occurrences, N (.var x))

namespace Session

variable {s : Session} {deep : Prop} {N : Node → Prop}

/-- The declared types of fields have no inference variables and lease from nothing. -/
def DeclaresPlain (s : Session) : Prop := ∀ f t, s.program.fieldTy f = some t → t.infers = [] ∧ t.leases = []

theorem DeclaresPlain.fieldTy? (plain : s.DeclaresPlain) {owner t : Ty} {f : Field} (within : (Term.ty owner).Within deep N)
    (typed : s.fieldTy? owner f = some t) : (Term.ty t).Within deep N := by
  obtain ⟨args, ty, u, found, declared, arity, replaced, rfl⟩ := fieldTy?_eq_some_iff.mp typed
  let L : Lexicon := .asking fun i => N (.infer i)
  obtain ⟨perm, head⟩ := Ty.In.red (L := L) within.1
  obtain ⟨free, none⟩ := plain f ty declared
  have leased := owner.leases_head
  rw [show owner.red.head = _ from found] at head
  rw [found] at leased
  have entry (v : Variable) (t : Term) (looked : Substitution.lookup ⟨f.owner.generics.zip args⟩ v = some t) : t ∈ args :=
    (List.of_mem_zip (Substitution.mem_of_lookup looked)).2
  have allowed (v : Variable) : (L.under ⟨f.owner.generics.zip args⟩).var v :=
    Lexicon.var_under arity.symm (fun t member => (Ty.in_named.mp head t member).fills) (.inr trivial)
  have larger : L.Within (L.under ⟨f.owner.generics.zip args⟩) :=
    ⟨fun _ _ => id, fun v _ => allowed v, fun v _ => allowed v, id⟩
  have declaredIn : (Term.ty ty).In L := Term.in_asking fun i inside => absurd (show i ∈ ty.infers from inside) (by simp [free])
  have ends := Ty.In.subst (Ty.In.mono larger declaredIn)
  rw [replaced] at ends
  have less : u.leases ⊆ Term.leasesAll args :=
    Ty.replaced (Substitution.sends_leasing fun v t looked => Term.leases_subset_all (entry v t looked)) ty.in_all
      replaced none
  have fewer : (owner.red.perm.applyTo u).leases ⊆ owner.leases :=
    List.Subset.trans (Ty.leases_applyTo _ _) (List.append_subset.mpr ⟨owner.leases_perm, List.Subset.trans less leased⟩)
  exact ⟨perm.applyTo ends, fun looks place member => within.2 looks place (fewer member)⟩

/-- The term that testing a node goes on with. -/
def term? (s : Session) : Node → Option Term
  | .infer i => (s.lower? i).map Bound.term
  | .var x => (s.variableTys.lookup x).map .ty

def Closed (s : Session) (deep : Prop) (N : Node → Prop) : Prop :=
  ∀ n, N n → ∀ t, s.term? n = some t → t.Within deep N

/-- Whatever a field of the owner is answered to be is among the nodes that the owner leads to. -/
def Projects (s : Session) (owner : Ty) (r : Except Failure Ty) : Prop :=
  s.DeclaresPlain → ∀ deep N, s.Closed deep N → (Term.ty owner).Within deep N → ∀ t, r = .ok t → (Term.ty t).Within deep N

theorem projects_error (owner : Ty) (x : Failure) : s.Projects owner (.error x) := fun _ _ _ _ _ _ wrong => by cases wrong

end Session

theorem Term.AllBare.bare {t : Term} : {ts : List Term} → Term.AllBare ts → t ∈ ts → t.Bare
  | _ :: _, bare, member => by
    rcases List.mem_cons.mp member with rfl | member
    · exact bare.1
    · exact Term.AllBare.bare bare.2 member

/-- The place has a bare type, and so have the places it is leased from. -/
inductive Session.BarePlace (s : Session) : Place → Prop where
  | intro {place : Place} {t : Ty} : s.placeTy? place = some t → t.Bare → (∀ q ∈ t.leases, BarePlace s q) →
    BarePlace s place

theorem Session.BarePlaces.bare {s : Session} {places : List Place} (types : s.BarePlaces places) :
    ∀ place ∈ places, s.BarePlace place :=
  types.induction fun _ _ _ typed bare _ leased => .intro typed bare leased

/-- Only copy and move look at the places that are leased from. -/
def Session.Clear (s : Session) (p : Predicate) (t : Term) : Prop :=
  t.Bare ∧ (p = .copy ∨ p = .move → ∀ place ∈ t.leases, s.BarePlace place)

theorem Session.Clear.part {s : Session} {p : Predicate} {t u : Term} (clear : s.Clear p t) (bare : u.Bare)
    (within : u.leases ⊆ t.leases) : s.Clear p u :=
  ⟨bare, fun depends place member => clear.2 depends place (within member)⟩

theorem Session.Clear.argument {s : Session} {p : Predicate} {name : TyName} {args : List Term} {t : Term}
    (clear : s.Clear p (.ty (.named name args))) (member : t ∈ args) : s.Clear p t :=
  clear.part (Term.AllBare.bare clear.1 member) (Term.leases_subset_all member)

theorem Session.BarePlaces.clear {s : Session} {places : List Place} (types : s.BarePlaces places) {p : Predicate}
    {t : Term} (bare : t.Bare) (within : t.leases ⊆ places) : s.Clear p t :=
  ⟨bare, fun _ place member => types.bare place (within member)⟩

namespace Goal

def Truth (s : Session) (env : Env) : Goal .truth → Prop
  | .holds _ p t => s.Proves env p t
  | .tyHolds _ p t => s.Proves env p (.ty t)
  | .permHolds _ p q => s.Proves env p (.perm q)
  | .placeHolds _ p place => s.Proves env p (.place place)
  | .refuted _ .owned t => s.Proves env .lent t
  | .refuted _ .lent t => s.Proves env .owned t
  | .refuted _ p t => s.Refutes env p t
  | .tyRefuted _ p t => s.Refutes env p (.ty t)
  | .permRefuted _ p q => s.Refutes env p (.perm q)
  | .placeRefuted _ p place => s.Refutes env p (.place place)
  | _ => False

def Clear (s : Session) (env : Env) : Goal .truth → Prop
  | .holds e p t | .refuted e p t => env.Agrees e ∧ s.Clear p t
  | .tyHolds e p t | .tyRefuted e p t => env.Agrees e ∧ s.Clear p (.ty t)
  | .permHolds e p q | .permRefuted e p q => env.Agrees e ∧ s.Clear p (.perm q)
  | .placeHolds e _ place | .placeRefuted e _ place => env.Agrees e ∧ s.BarePlace place
  | _ => False

def Right (s : Session) (env : Env) : Goal .unit → Prop
  | .subTerms _ l u _ => s.Below env l u
  | .subTys _ l u _ => s.Below env (.ty l) (.ty u)
  | .subPerms _ l u _ => l.Below u
  | .subPermsOfHeads _ l u _ => l.perm.Below u.perm
  | .subHeads _ l u _ => s.HeadsBelow env l u
  | .require _ p t _ => s.Accepts env p t
  | .establish _ p t _ => s.Accepts env p t
  | .establishTy _ p t _ => s.Accepts env p (.ty t)
  | .establishPerm _ p q _ => s.Accepts env p (.perm q)
  | .establishUnless _ p other t _ => ¬ s.Proves env p other → s.Accepts env p t
  | .establishCopyPlace _ place _ => s.Accepts env .copy (.place place)
  | .establishMovePlace _ place _ => s.Proves env .move (.place place)
  | _ => False

end Goal

namespace Session

def Failed (s last : Session) : Prop := s.diagnostics.length < last.diagnostics.length

def Settled (s : Session) (P quiet : Prop) (r : Except Failure Unit) (w : Moment) : Prop :=
  (r = .ok () ∧ P) ∨ ¬ quiet ∧ (∃ report, r = .error (.reported report)) ∧ s.Failed w.session

def Judged (s : Session) (env : Env) (quiet : Prop) :
    ⦃sh : Shape⦄ → Goal sh → Except Failure sh.Value → Moment → Prop
  | .truth, g, r, _ => g.Clear s env → Tells (g.Truth s env) r
  | .unit, g, r, w => s.Settled (g.Right s env) quiet r w
  | .ty, .fieldTy _ owner f, r, _ => ((∀ i, owner.head ≠ .infer i) → r.toOption = s.fieldTy? owner f) ∧ s.Projects owner r
  | .bound, .lowerBound _ i, r, _ => ∀ b, r = .ok (some b) → s.lower? i = some b
  | .evidence, .evidence _ i _, r, _ => ∀ b, r = .ok (.bounded b) → s.lower? i = some b
  | .finding, _, _, _ => True

/-- Goals about ground terms are judged by what provably holds of them in the session. Where it is `quiet`, nothing
is refused. -/
def grounded (s : Session) (env : Env) (quiet waits : Prop) : Contract where
  Sound w := w.session.program = s.program ∧ w.session.variableTys = s.variableTys ∧
    (quiet → w.session.diagnostics = s.diagnostics) ∧
    s.diagnostics.length ≤ w.session.diagnostics.length ∧ s.SameLowers w.session
  Later w w' := w.session.diagnostics.length ≤ w'.session.diagnostics.length
  Post _ g _ r w := s.Judged env quiet g r w
  Debt := Empty
  Owed _ _ := False
  Paid _ _ := True
  Waits := waits
  later_refl _ := Nat.le_refl _
  later_trans := Nat.le_trans
  post_later {sh g _ r w w'} post later := by
    cases sh with
    | truth => exact post
    | unit => exact post.imp_right fun ⟨loud, reported, failed⟩ => ⟨loud, reported, Nat.lt_of_lt_of_le failed later⟩
    | ty => cases g; exact post
    | bound => cases g; exact post
    | evidence => cases g; exact post
    | finding => trivial
  paid_later _ _ := trivial
  alike := by
    rintro _ _ answers ⟨_, _, _, _, rfl⟩ sound
    exact ⟨sound, Nat.le_refl _⟩
  owed_alike _ := id

abbrev ground (s : Session) (env : Env) (quiet : Prop) : Contract := s.grounded env quiet False

abbrev Tests (s : Session) (env : Env) (quiet waits : Prop) {sh : Shape} (g : Goal sh) : Prop :=
  (s.grounded env quiet waits).Sure g

abbrev Sure (s : Session) (env : Env) (quiet : Prop) {sh : Shape} (g : Goal sh) : Prop := s.Tests env quiet False g

variable {s : Session} {env e : Env} {quiet waits : Prop} {p : Predicate} {places : List Place}

theorem ground_start : (s.grounded env quiet waits).Sound ⟨s, []⟩ := ⟨rfl, rfl, fun _ => rfl, Nat.le_refl _, .refl s⟩

theorem sure_of_rule {sh : Shape} {g : Goal sh} (meets : ∀ w, (s.grounded env quiet waits).Sound w →
    (Rules.rule sh g).Settles (s.grounded env quiet waits) (sh = .unit) (s.Judged env quiet g) w) : s.Tests env quiet waits g :=
  Contract.sure_of_rule (fun _ _ _ _ sound => ⟨Nat.le_refl _, sound⟩) meets

section Races

variable {tests : List (Goal .truth)} {P R owing : Prop} {w : Moment}

theorem tells_of_raceEnds {decisive : Bool} {v u : Moment} {r : Except Failure Bool}
    (clear : ∀ g ∈ tests, g.Clear s env)
    (decided : ∀ g ∈ tests, (decisive = true ↔ g.Truth s env) → (decisive = true ↔ R))
    (undecided : (∀ g ∈ tests, (!decisive) = true ↔ g.Truth s env) → ((!decisive) = true ↔ R))
    (ended : (s.grounded env quiet waits).RaceEnds decisive (tests.map (·, v)) r u) : Tells R r := by
  have told {b : Bool} {g : Goal .truth} (member : g ∈ tests) (post : s.Judged env quiet g (.ok b) u) :
      b = true ↔ g.Truth s env := by
    obtain ⟨_, same, tells⟩ := post (clear g member)
    cases same
    exact tells
  cases r with
  | error e =>
    obtain ⟨_, asked, post⟩ := ended
    obtain ⟨g, member, rfl⟩ := List.mem_map.mp asked
    obtain ⟨_, wrong, _⟩ := post (clear g member)
    cases wrong
  | ok b =>
    refine ⟨b, rfl, ?_⟩
    rcases ended with ⟨rfl, _, asked, post⟩ | ⟨rfl, posts⟩
    · obtain ⟨g, member, rfl⟩ := List.mem_map.mp asked
      exact decided g member (told member post)
    · exact undecided fun g member => told member (posts _ (List.mem_map_of_mem member))

theorem tells_of_any {v u : Moment} {r : Except Failure Bool} (clear : ∀ g ∈ tests, g.Clear s env)
    (same : R ↔ ∃ g ∈ tests, g.Truth s env)
    (ended : (s.grounded env quiet waits).RaceEnds true (tests.map (·, v)) r u) : Tells R r := by
  refine tells_of_raceEnds clear (fun g member holds => ?_) (fun fails => ?_) ended
  · exact ⟨fun _ => same.mpr ⟨g, member, holds.mp rfl⟩, fun _ => rfl⟩
  · refine ⟨nofun, fun some_ => ?_⟩
    obtain ⟨g, member, holds⟩ := same.mp some_
    exact (fails g member).mpr holds

variable (sure : ∀ g ∈ tests, s.Tests env quiet waits g) (clear : P → ∀ g ∈ tests, g.Clear s env)
include sure clear

theorem meets_anyOf (same : R ↔ ∃ g ∈ tests, g.Truth s env) :
    (Prog.anyOf tests).Settles (s.grounded env quiet waits) owing (fun r _ => P → Tells R r) w :=
  .raced fun v leads =>
    ⟨fun g member => sure g member v leads.sound, fun _ _ _ ended known => tells_of_any (clear known) same ended⟩

theorem meets_someOf (same : R ↔ ∃ g ∈ tests, g.Truth s env) :
    (Prog.someOf tests).Settles (s.grounded env quiet waits) owing (fun r _ => P → Tells R r) w :=
  .race fun v leads =>
    ⟨fun g member => sure g member v leads.sound, fun _ _ _ ended known => tells_of_any (clear known) same ended⟩

theorem meets_allOf (same : R ↔ ∀ g ∈ tests, g.Truth s env) :
    (Prog.allOf tests).Settles (s.grounded env quiet waits) owing (fun r _ => P → Tells R r) w := by
  refine .raced fun v leads => ⟨fun g member => sure g member v leads.sound, fun _ _ _ ended known =>
    tells_of_raceEnds (clear known) (fun g member fails => ?_) (fun holds => ?_) ended⟩
  · exact ⟨nofun, fun all => fails.mpr (same.mp all g member)⟩
  · exact ⟨fun _ => same.mpr fun g member => (holds g member).mp rfl, fun _ => rfl⟩

end Races

section Tests

variable {P R owing : Prop} {w : Moment} {g h : Goal .truth}

theorem meets_pair {disjunctive : Bool} (first : s.Tests env quiet waits g) (second : s.Tests env quiet waits h)
    (clear : P → g.Clear s env ∧ h.Clear s env) (either : disjunctive = true → (R ↔ g.Truth s env ∨ h.Truth s env))
    (both : disjunctive = false → (R ↔ g.Truth s env ∧ h.Truth s env)) :
    (Rules.combine disjunctive [g, h]).Settles (s.grounded env quiet waits) owing (fun r _ => P → Tells R r) w := by
  have sure : ∀ x ∈ [g, h], s.Tests env quiet waits x := List.forall_mem_cons.mpr ⟨first, List.forall_mem_singleton.mpr second⟩
  have clears (known : P) : ∀ x ∈ [g, h], x.Clear s env :=
    List.forall_mem_cons.mpr ⟨(clear known).1, List.forall_mem_singleton.mpr (clear known).2⟩
  cases disjunctive with
  | true => exact meets_anyOf sure clears (by simp [either])
  | false => exact meets_allOf sure clears (by simp [both])

theorem meets_relay (sure : s.Tests env quiet waits g) (same : P → g.Clear s env ∧ (g.Truth s env ↔ R)) :
    (Prog.relay g).Settles (s.grounded env quiet waits) owing (fun r _ => P → Tells R r) w :=
  .relay fun v leads => ⟨sure v leads.sound, nofun, fun _ _ _ post known =>
    have ⟨b, ended, tells⟩ := post (same known).1
    ⟨b, ended, tells.trans (same known).2⟩⟩

theorem sure_pure {b : Bool} (rule : Rules.rule .truth g = pure b)
    (same : g.Clear s env → (b = true ↔ g.Truth s env)) : s.Tests env quiet waits g := by
  refine sure_of_rule fun _ _ => ?_
  rw [rule]
  exact fun _ _ clear => ⟨b, rfl, same clear⟩

end Tests

def TestsPlaces (s : Session) (env : Env) (quiet waits : Prop) (ps : List Place) : Prop :=
  ∀ place ∈ ps, ∀ e p, p = .copy ∨ p = .move →
    s.Tests env quiet waits (.placeHolds e p place) ∧ s.Tests env quiet waits (.placeRefuted e p place)

theorem TestsPlaces.subset {ps qs : List Place} (tests : s.TestsPlaces env quiet waits qs) (within : ps ⊆ qs) :
    s.TestsPlaces env quiet waits ps := fun place member => tests place (within member)

/-- What is asked of the inference variable ends; only copy and move may look through leases. -/
def TestsInfer (s : Session) (env : Env) (quiet waits deep : Prop) (i : InferIndex) : Prop :=
  ∀ e p, (p = .copy ∨ p = .move → deep) → s.Tests env quiet waits (.inferHolds e i p) ∧
    (p = .copy ∨ p = .move → ∀ w, (Rules.inferRefuted e i p).Settles (s.grounded env quiet waits) False (fun _ _ => True) w)

variable {A : InferIndex → Prop} {deep : Prop}

/-- A permission is tested leaf by leaf, once the leased places are. -/
theorem tests_perm {q : Perm} (infers : ∀ i, A i → s.TestsInfer env quiet waits deep i) (asks : q.In (.asking A))
    (leased : p = .copy ∨ p = .move → deep ∧ s.TestsPlaces env quiet waits q.leases) : s.Tests env quiet waits (.permHolds e p q) ∧
      (p = .copy ∨ p = .move → s.Tests env quiet waits (.permRefuted e p q)) := by
  induction q with
  | my | our | shared =>
    exact ⟨sure_pure rfl (by simp [Goal.Truth]), fun _ => sure_pure rfl (by simp [Goal.Truth])⟩
  | leased ps =>
    have holds (depends : p = .copy ∨ p = .move) : ∀ g ∈ ps.map (.placeHolds e p), s.Tests env quiet waits g :=
      List.forall_mem_map.mpr fun place member => ((leased depends).2 place member e p depends).1
    have refuted (depends : p = .copy ∨ p = .move) : ∀ g ∈ ps.map (.placeRefuted e p), s.Tests env quiet waits g :=
      List.forall_mem_map.mpr fun place member => ((leased depends).2 place member e p depends).2
    have clear (depends : p = .copy ∨ p = .move) (known : env.Agrees e ∧ s.Clear p (.perm (.leased ps))) :
        ∀ place ∈ ps, env.Agrees e ∧ s.BarePlace place := fun place member => ⟨known.1, known.2.2 depends place member⟩
    constructor
    · have all (depends : p = .copy ∨ p = .move) : s.Proves env p (.perm (.leased ps)) ↔
          ∀ g ∈ ps.map (Goal.placeHolds e p), g.Truth s env := by
        rw [List.forall_mem_map]
        exact proves_leased depends
      refine sure_of_rule fun _ _ => ?_
      cases p with
      | copy => exact meets_allOf (holds (.inl rfl)) (fun h => List.forall_mem_map.mpr (clear (.inl rfl) h)) (all (.inl rfl))
      | move => exact meets_allOf (holds (.inr rfl)) (fun h => List.forall_mem_map.mpr (clear (.inr rfl) h)) (all (.inr rfl))
      | owned => exact fun _ _ _ => ⟨false, rfl, nofun, fun h => (not_proves_owned h).elim⟩
      | lent => exact fun _ _ _ => ⟨true, rfl, fun _ => proves_lent, fun _ => rfl⟩
    · intro depends
      refine sure_of_rule fun _ _ => meets_anyOf (refuted depends)
        (fun h => List.forall_mem_map.mpr (clear depends h)) ?_
      simp [Goal.Truth]
  | apply l r left right =>
    have lefts := left asks.1 fun depends => (leased depends).imp_right (·.subset <| List.subset_append_left _ _)
    have rights := right asks.2 fun depends => (leased depends).imp_right (·.subset <| List.subset_append_right _ _)
    have clear (known : env.Agrees e ∧ s.Clear p (.perm (.apply l r))) :
        (env.Agrees e ∧ s.Clear p (.perm l)) ∧ env.Agrees e ∧ s.Clear p (.perm r) :=
      ⟨⟨known.1, known.2.part known.2.1.1 (List.subset_append_left _ _)⟩,
        known.1, known.2.part known.2.1.2 (List.subset_append_right _ _)⟩
    refine ⟨sure_of_rule fun _ _ => ?_, fun depends => sure_of_rule fun _ _ => ?_⟩
    · exact meets_pair lefts.1 rights.1 clear proves_apply_either proves_apply_both
    · exact meets_pair (lefts.2 depends) (rights.2 depends) clear
        (fun way => refutes_apply_either (by simpa using way)) fun way => refutes_apply_both (by simpa using way)
  | var v =>
    exact ⟨sure_pure rfl fun clear => by simp [Goal.Truth, clear.1.assumes],
      fun _ => sure_pure rfl fun clear => by simp [Goal.Truth, clear.1.assumes]⟩
  | infer i =>
    obtain ⟨holds, refuted⟩ := infers i (asks.resolve_left nofun) e p fun depends => (leased depends).1
    refine ⟨sure_of_rule fun _ _ => meets_relay holds fun clear => clear.2.1.elim, fun depends => sure_of_rule fun _ _ => ?_⟩
    exact .relayed ((refuted depends _).imp (fun _ _ _ => id) False.elim fun _ _ _ _ clear => clear.2.1.elim)
  | error => exact ⟨sure_of_rule fun _ _ _ _ clear => clear.2.1.elim, fun _ => sure_of_rule fun _ _ _ _ clear => clear.2.1.elim⟩

mutual
theorem tests_ty (infers : ∀ i, A i → s.TestsInfer env quiet waits deep i) (p : Predicate) (t : Ty) (asks : t.In (.asking A))
    (leased : p = .copy ∨ p = .move → deep ∧ s.TestsPlaces env quiet waits t.leases) : s.Tests env quiet waits (.tyHolds e p t) ∧
      (p = .copy ∨ p = .move → s.Tests env quiet waits (.tyRefuted e p t)) := by
  match t with
  | .perm q t =>
    have perms := tests_perm (e := e) infers asks.1 fun depends => (leased depends).imp_right (·.subset <| List.subset_append_left _ _)
    have tys := tests_ty infers p t asks.2 fun depends => (leased depends).imp_right (·.subset <| List.subset_append_right _ _)
    have clear (known : env.Agrees e ∧ s.Clear p (.ty (.perm q t))) :
        (env.Agrees e ∧ s.Clear p (.perm q)) ∧ env.Agrees e ∧ s.Clear p (.ty t) :=
      ⟨⟨known.1, known.2.part known.2.1.1 (List.subset_append_left _ _)⟩,
        known.1, known.2.part known.2.1.2 (List.subset_append_right _ _)⟩
    refine ⟨sure_of_rule fun _ _ => ?_, fun depends => sure_of_rule fun _ _ => ?_⟩
    · exact meets_pair perms.1 tys.1 clear proves_perm_either proves_perm_both
    · exact meets_pair (perms.2 depends) (tys.2 depends) clear
        (fun way => refutes_perm_either (by simpa using way)) fun way => refutes_perm_both (by simpa using way)
  | .named name args =>
    have each := tests_terms infers p args asks leased
    have clear (known : env.Agrees e ∧ s.Clear p (.ty (.named name args))) :
        ∀ a ∈ args, env.Agrees e ∧ s.Clear p a := fun _ member => ⟨known.1, known.2.argument member⟩
    refine ⟨sure_of_rule fun w _ => ?_, fun depends => sure_of_rule fun w _ => ?_⟩
    · have sure : ∀ g ∈ args.map (.holds e p), s.Tests env quiet waits g :=
        List.forall_mem_map.mpr fun a member => (each a member).1
      have named : s.Proves env p (.ty (.named name args)) ↔ _ := proves_named
      change (match p.ofNamed name with
        | .always => pure true
        | .never => pure false
        | .someArgument => .anyOf (args.map (.holds e p))
        | .everyArgument => .allOf (args.map (.holds e p)) : Prog Bool).Settles _ _
          (fun r _ => _ → Tells (s.Proves env p (.ty (.named name args))) r) _
      cases rule : p.ofNamed name <;> rw [rule] at named
      · exact fun _ _ _ => ⟨true, rfl, by simp [named]⟩
      · exact fun _ _ _ => ⟨false, rfl, by simp [named]⟩
      · exact meets_anyOf sure (fun h => List.forall_mem_map.mpr (clear h)) (by simp [named, Goal.Truth])
      · exact meets_allOf sure (fun h => List.forall_mem_map.mpr (clear h)) (by simp [named, Goal.Truth])
    · have sure : ∀ g ∈ args.map (.refuted e p), s.Tests env quiet waits g :=
        List.forall_mem_map.mpr fun a member => (each a member).2
      have truth (t : Term) : (Goal.refuted e p t).Truth s env ↔ s.Refutes env p t := by
        rcases depends with rfl | rfl <;> rfl
      have named : s.Refutes env p (.ty (.named name args)) ↔ _ := refutes_named
      change (match p.ofNamed name with
        | .always => pure false
        | .never => pure true
        | .someArgument => .allOf (args.map (.refuted e p))
        | .everyArgument => .anyOf (args.map (.refuted e p)) : Prog Bool).Settles _ _
          (fun r _ => _ → Tells (s.Refutes env p (.ty (.named name args))) r) _
      cases rule : p.ofNamed name <;> rw [rule] at named
      · exact fun _ _ _ => ⟨false, rfl, by simp [named]⟩
      · exact fun _ _ _ => ⟨true, rfl, by simp [named]⟩
      · exact meets_allOf sure (fun h => List.forall_mem_map.mpr (clear h)) (by simp [named, truth])
      · exact meets_anyOf sure (fun h => List.forall_mem_map.mpr (clear h)) (by simp [named, truth])
  | .var v =>
    exact ⟨sure_pure rfl fun clear => by simp [Goal.Truth, clear.1.assumes],
      fun _ => sure_pure rfl fun clear => by simp [Goal.Truth, clear.1.assumes]⟩
  | .never => exact ⟨sure_pure rfl (by simp [Goal.Truth]), fun _ => sure_pure rfl (by simp [Goal.Truth])⟩
  | .infer i =>
    obtain ⟨holds, refuted⟩ := infers i (asks.resolve_left nofun) e p fun depends => (leased depends).1
    refine ⟨sure_of_rule fun _ _ => meets_relay holds fun clear => clear.2.1.elim, fun depends => sure_of_rule fun _ _ => ?_⟩
    exact .relayed ((refuted depends _).imp (fun _ _ _ => id) False.elim fun _ _ _ _ clear => clear.2.1.elim)
  | .error _ => exact ⟨sure_of_rule fun _ _ _ _ clear => clear.2.1.elim, fun _ => sure_of_rule fun _ _ _ _ clear => clear.2.1.elim⟩

theorem tests_term (infers : ∀ i, A i → s.TestsInfer env quiet waits deep i) (p : Predicate) (t : Term)
    (asks : t.In (.asking A)) (leased : p = .copy ∨ p = .move → deep ∧ s.TestsPlaces env quiet waits t.leases) :
    s.Tests env quiet waits (.holds e p t) ∧ s.Tests env quiet waits (.refuted e p t) := by
  -- Owned and lent are refuted by each other's test, which looks at no place.
  match t with
  | .ty t =>
    have test := tests_ty infers p t asks leased
    refine ⟨sure_of_rule fun _ _ => meets_relay test.1 fun h => ⟨h, .rfl⟩, sure_of_rule fun _ _ => ?_⟩
    cases p with
    | copy => exact meets_relay (test.2 (.inl rfl)) fun h => ⟨h, .rfl⟩
    | move => exact meets_relay (test.2 (.inr rfl)) fun h => ⟨h, .rfl⟩
    | owned => exact meets_relay (tests_ty infers .lent t asks (by simp)).1 fun h => ⟨⟨h.1, h.2.1, by simp⟩, .rfl⟩
    | lent => exact meets_relay (tests_ty infers .owned t asks (by simp)).1 fun h => ⟨⟨h.1, h.2.1, by simp⟩, .rfl⟩
  | .perm q =>
    have test := tests_perm (e := e) infers asks leased
    refine ⟨sure_of_rule fun _ _ => meets_relay test.1 fun h => ⟨h, .rfl⟩, sure_of_rule fun _ _ => ?_⟩
    cases p with
    | copy => exact meets_relay (test.2 (.inl rfl)) fun h => ⟨h, .rfl⟩
    | move => exact meets_relay (test.2 (.inr rfl)) fun h => ⟨h, .rfl⟩
    | owned => exact meets_relay (tests_perm (e := e) (p := .lent) infers asks (by simp)).1 fun h => ⟨⟨h.1, h.2.1, by simp⟩, .rfl⟩
    | lent => exact meets_relay (tests_perm (e := e) (p := .owned) infers asks (by simp)).1 fun h => ⟨⟨h.1, h.2.1, by simp⟩, .rfl⟩
  | .place _ | .error _ =>
    refine ⟨sure_of_rule fun _ _ _ _ clear => clear.2.1.elim, sure_of_rule fun _ _ => ?_⟩
    cases p <;> exact fun _ _ clear => clear.2.1.elim

theorem tests_terms (infers : ∀ i, A i → s.TestsInfer env quiet waits deep i) (p : Predicate) (ts : List Term)
    (asks : Term.AllIn (.asking A) ts) (leased : p = .copy ∨ p = .move → deep ∧ s.TestsPlaces env quiet waits (Term.leasesAll ts)) :
    ∀ t ∈ ts, s.Tests env quiet waits (.holds e p t) ∧ s.Tests env quiet waits (.refuted e p t) := by
  match ts with
  | [] => exact nofun
  | t :: ts =>
    have first := tests_term infers p t asks.1 fun depends => (leased depends).imp_right (·.subset <| List.subset_append_left _ _)
    have rest := tests_terms infers p ts asks.2 fun depends => (leased depends).imp_right (·.subset <| List.subset_append_right _ _)
    exact List.forall_mem_cons.mpr ⟨first, rest⟩
end

theorem sure_field {owner : Ty} {f : Field} (known : ∀ i, owner.head ≠ .infer i) :
    s.Tests env quiet waits (.fieldTy e owner f) := by
  have projects {r : Except Failure Ty} (same : r.toOption = s.fieldTy? owner f) : s.Projects owner r := by
    rintro plain deep N _ within t rfl
    exact plain.fieldTy? within same.symm
  refine sure_of_rule fun w sound => ?_
  refine Prog.Meets.mono (Q := fun r _ => r.toOption = s.fieldTy? owner f) ?_ fun _ _ _ same => ⟨fun _ => same, projects same⟩
  change (Rules.fieldTy e owner f).Settles _ _ _ _
  unfold Rules.fieldTy fieldTy? Ty.head
  dsimp only
  cases head : owner.red.head with
  | infer i => exact (known i head).elim
  | named name args =>
    cases name with
    | aggregate a =>
      by_cases own : a = f.owner
      · simp only [own, ne_eq, not_true_eq_false, if_false, if_true]
        refine .get_bind fun v leads => ?_
        rw [leads.sound.1]
        cases Rules.declaredFieldTy s.program f args <;> exact fun _ _ => rfl
      · simp only [own, ne_eq, not_false_eq_true, if_true, if_false]
        exact fun _ _ => rfl
    | _ => exact fun _ _ => rfl
  | _ => exact fun _ _ => rfl

variable {owing : Prop} {w : Moment} {place : Place}

theorem meets_placeTy {t : Ty} (typed : s.placeTy? place = some t) :
    (Rules.placeTy e place).Settles (s.grounded env quiet waits) owing (fun r _ => r = .ok t) w := by
  induction place generalizing w t with
  | var v =>
    change (Prog.perform (Action.variableTy v)).Settles _ _ _ _
    refine .read (fun s => by rw [Action.exec_variableTy]) fun w' leads _ _ => ?_
    rw [Action.exec_variableTy, leads.sound.2.1, show s.variableTys.lookup v = some t from typed]
    rfl
  | field base f ih =>
    obtain ⟨owner, found, typed⟩ := Option.bind_eq_some_iff.mp typed
    have known (i : InferIndex) : owner.head ≠ .infer i := fun head => by simp [fieldTy?, head] at typed
    refine .bind (ih found).awaited (fun owner' v _ same => ?_) fun _ _ _ wrong => by cases wrong
    cases same
    refine .relay fun v' leads => ⟨sure_field known v' leads.sound, nofun, fun r _ _ post => ?_⟩
    have answer : r.toOption = some t := (post.1 known).trans typed
    cases r <;> cases answer
    rfl
  | index | infer | error => cases typed

/-- What goes on with the type of a place. -/
theorem meets_at {α : Type} {t : Ty} {next : Ty → Prog α} {Q : Except Failure α → Moment → Prop}
    (typed : s.placeTy? place = some t) (meets : ∀ v, (next t).Settles (s.grounded env quiet waits) owing Q v) :
    (Prog.awaited (Rules.placeTy e place) >>= next).Settles (s.grounded env quiet waits) owing Q w := by
  refine .bind (meets_placeTy typed).awaited (fun t' v _ found => ?_) fun _ _ _ wrong => by cases wrong
  cases found
  exact meets v

theorem BarePlace.tests (bare : s.BarePlace place) : s.TestsPlaces env quiet waits [place] := by
  induction bare with
  | @intro place t typed bare leased ih =>
    refine List.forall_mem_singleton.mpr fun e p depends => ?_
    have test := tests_ty (e := e) (A := fun _ => False) (fun _ => False.elim) p t bare.asking fun _ =>
      ⟨trivial, fun q member => ih q member q (List.mem_singleton_self q)⟩
    have clear (agrees : env.Agrees e) : env.Agrees e ∧ s.Clear p (.ty t) := ⟨agrees, bare, fun _ => leased⟩
    refine ⟨sure_of_rule fun w _ => meets_at typed fun v => ?_, sure_of_rule fun w _ => meets_at typed fun v => ?_⟩
    · exact meets_relay test.1 fun known => ⟨clear known.1, (proves_place typed).symm⟩
    · exact meets_relay (test.2 depends) fun known => ⟨clear known.1, (refutes_place typed).symm⟩

theorem Clear.tests {t : Term} (clear : s.Clear p t) :
    s.Tests env quiet waits (.holds e p t) ∧ s.Tests env quiet waits (.refuted e p t) :=
  tests_term (A := fun _ => False) (fun _ => False.elim) p t clear.1.asking fun depends =>
    ⟨trivial, fun place member => (clear.2 depends place member).tests place (List.mem_singleton_self place)⟩

theorem Clear.testsTy {t : Ty} (clear : s.Clear p (.ty t)) : s.Tests env quiet waits (.tyHolds e p t) :=
  (tests_ty (A := fun _ => False) (fun _ => False.elim) p t clear.1.asking fun depends =>
    ⟨trivial, fun place member => (clear.2 depends place member).tests place (List.mem_singleton_self place)⟩).1

theorem meets_askTy {t : Ty} (agrees : env.Agrees e) (clear : s.Clear p (.ty t)) :
    (Prog.ask (.tyHolds e p t)).Settles (s.grounded env quiet waits) owing (fun r _ => Tells (s.Proves env p (.ty t)) r) w :=
  .ask fun v leads => ⟨clear.testsTy v leads.sound, nofun, fun _ _ _ post => post ⟨agrees, clear⟩⟩

theorem meets_ask {t : Term} (agrees : env.Agrees e) (clear : s.Clear p t) :
    (Prog.ask (.holds e p t)).Settles (s.grounded env quiet waits) owing (fun r _ => Tells (s.Proves env p t) r) w :=
  .ask fun v leads => ⟨clear.tests.1 v leads.sound, nofun, fun _ _ _ post => post ⟨agrees, clear⟩⟩

def Answers (s : Session) (g : Goal .truth) (b : Bool) : Prop := ∃ last, g.Yields s (.ok b) last

section Answers

variable {g : Goal .truth}

theorem Answers.unique {b c : Bool} (first : s.Answers g b) (second : s.Answers g c) : b = c := by
  obtain ⟨_, yields⟩ := first
  obtain ⟨_, yields'⟩ := second
  simpa using (yields.unique yields').1

theorem answers_true_iff {P : Prop} (decided : ∃ b, s.Answers g b ∧ (b = true ↔ P)) : s.Answers g true ↔ P := by
  obtain ⟨b, answers, holds⟩ := decided
  rw [← holds]
  exact ⟨fun yes => answers.unique yes, fun yes => yes ▸ answers⟩

theorem answers_of_clear (sure : s.Sure env False g) (clear : g.Clear s env) :
    ∃ b, s.Answers g b ∧ (b = true ↔ g.Truth s env) := by
  obtain ⟨r, last, _, _, yields, _, post, _⟩ :=
    Goal.yields_of_settles id ground_start fun w leads => sure w leads.sound
  obtain ⟨b, rfl, holds⟩ := post clear
  exact ⟨b, ⟨last, yields⟩, holds⟩

end Answers

variable (env) {t : Term}

theorem Clear.answers (clear : s.Clear p t) : (∃ b, s.Answers (.holds env p t) b ∧ (b = true ↔ s.Proves env p t)) ∧
    ∃ b, s.Answers (.refuted env p t) b ∧ (b = true ↔ (Goal.refuted env p t).Truth s env) :=
  ⟨answers_of_clear clear.tests.1 ⟨rfl, clear⟩, answers_of_clear clear.tests.2 ⟨rfl, clear⟩⟩

theorem answers_holds (bare : t.Bare) (types : s.BarePlaces places) (within : t.leases ⊆ places) :
    ∃ b, s.Answers (.holds env p t) b ∧ (b = true ↔ s.Proves env p t) := ((types.clear bare within).answers env).1

end Session

end Ownership
