import Ownership.Proofs.FlatConstraints
import Ownership.Proofs.Propagation

namespace Ownership

open Relation (ReflTransGen)
open Constraint (Reaches Caps Leq Consistent mentioned missing)

def Record.Implied (cs : List Constraint) : Record → Prop
  | .lower i t => ∃ u, t = .ty u ∧ Reaches cs u i
  | .upper i t => ∃ u, t = .ty u ∧ Caps cs i u
  | .edge i j => .edge i j ∈ cs
  | .fact _ _ => False

namespace Session

def TypeVar (s : Session) (i : InferIndex) : Prop := ∃ v, s.inferVars[i]? = some v ∧ v.kind = .type

structure Follows (cs : List Constraint) (s : Session) : Prop where
  kinds : ∀ i ∈ mentioned cs, s.TypeVar i
  records : ∀ r, s.Has r → r.Implied cs
  successors : ∀ i v, s.inferVars[i]? = some v → ∀ j ∈ v.successors, .edge i j ∈ cs
  predecessors : ∀ i v, s.inferVars[i]? = some v → ∀ j ∈ v.predecessors, .edge j i ∈ cs

def Keeps (s : Session) : Ty → Ty → Prop
  | .infer i, .infer j => i = j ∨ s.Has (.edge i j)
  | .infer i, u => s.Has (.upper i (.ty u))
  | l, .infer j => s.Has (.lower j (.ty l))
  | l, u => l = u

variable {cs : List Constraint} {s s' : Session}

theorem TypeVar.of_gains {i : InferIndex} {r? : Option Record} {e? : Option (InferIndex × InferIndex)}
    (typed : s.TypeVar i) (gains : s.Gains s' r?) (links : s.Links e? s') : s'.TypeVar i := by
  obtain ⟨v, found, kind⟩ := typed
  have inside : i < s'.inferVars.length := gains.size ▸ (List.getElem?_eq_some_iff.mp found).1
  obtain ⟨u, found', kind', _⟩ := links i _ (List.getElem?_eq_getElem inside)
  cases found.symm.trans found'
  exact ⟨_, List.getElem?_eq_getElem inside, kind'.trans kind⟩

theorem Follows.of_gains {r? : Option Record} {e? : Option (InferIndex × InferIndex)} (follows : s.Follows cs)
    (gains : s.Gains s' r?) (links : s.Links e? s') (implied : ∀ r, r? = some r → r.Implied cs)
    (edge : ∀ i j, e? = some (i, j) → .edge i j ∈ cs) : s'.Follows cs where
  kinds i named := (follows.kinds i named).of_gains gains links
  records r has := ((gains.has r).mp has).elim (follows.records r) (implied r)
  successors i v' found j listed := by
    obtain ⟨v, known, _, after, _⟩ := links i v' found
    exact (after j listed).elim (follows.successors i v known j) (edge i j)
  predecessors i v' found j listed := by
    obtain ⟨v, known, _, _, before⟩ := links i v' found
    exact (before j listed).elim (follows.predecessors i v known j) (edge j i)

theorem Keeps.of_more (more : ∀ r, s.Has r → s'.Has r) {l u : Ty} (keeps : s.Keeps l u) : s'.Keeps l u := by
  unfold Keeps at keeps ⊢
  split at keeps
  · exact keeps.imp_right (more _)
  · exact more _ keeps
  · exact more _ keeps
  · exact keeps

theorem Keeps.eq_of_flat {arity : TyName → Nat} {l u : Ty} (lower : l.Flat arity) (upper : u.Flat arity)
    (keeps : s.Keeps l u) : l = u := by
  obtain ⟨_, _, rfl, _⟩ := lower.named
  obtain ⟨_, _, rfl, _⟩ := upper.named
  exact keeps

end Session

def Ty.Plain : Ty → Prop
  | .named _ _ => True
  | .infer _ => True
  | _ => False

def Goal.Kept (s : Session) : ⦃sh : Shape⦄ → Goal sh → Except Failure sh.Value → Prop
  | _, .subTerms _ (.ty l) (.ty u) _, .ok _ => s.Keeps l u
  | _, .subTys _ l u _, .ok _ => s.Keeps l u
  | _, .subHeads _ l u _, .ok _ => s.Keeps l.toTy u.toTy
  | _, .addLowerBound _ i t _, .ok _ => s.Has (.lower i t)
  | _, .addUpperBound _ i t _, .ok _ => s.Has (.upper i t)
  | _, _, .ok _ => True
  | _, _, .error _ => s.diagnostics ≠ []

theorem Goal.Kept.of_more {s s' : Session} (more : ∀ r, s.Has r → s'.Has r)
    (fails : s.diagnostics ≠ [] → s'.diagnostics ≠ []) {sh : Shape} {g : Goal sh}
    {r : Except Failure sh.Value} (kept : g.Kept s r) : g.Kept s' r := by
  unfold Kept at kept ⊢
  split at kept
  · exact kept.of_more more
  · exact kept.of_more more
  · exact kept.of_more more
  · exact more _ kept
  · exact more _ kept
  · trivial
  · exact fails kept

/-- Only what the constraints imply is recorded, and only what contradicts them is refused. -/
def Contract.flat (cs : List Constraint) : Contract where
  Sound w := w.session.Follows cs ∧ (w.session.diagnostics ≠ [] → ¬ Consistent cs) ∧
    ∀ a ∈ w.answers, a.goal.Kept w.session a.value
  Later w w' := (∀ r, w.session.Has r → w'.session.Has r) ∧
    (w.session.diagnostics ≠ [] → w'.session.diagnostics ≠ [])
  Post _ g _ r w := g.Kept w.session r
  Debt := Empty
  Owed _ _ := False
  Paid _ _ := True
  Waits := False
  later_refl _ := ⟨fun _ => id, id⟩
  later_trans first second := ⟨fun r has => second.1 r (first.1 r has), second.2 ∘ first.2⟩
  post_later post later := post.of_more later.1 later.2
  paid_later _ _ := trivial
  alike := by
    rintro s _ answers ⟨_, _, _, _, rfl⟩ ⟨follows, refused, kept⟩
    have same : ∀ r, s.Has r → Session.Has _ r := fun _ => id
    exact ⟨⟨⟨follows.kinds, follows.records, follows.successors, follows.predecessors⟩, refused,
      fun a member => (kept a member).of_more same id⟩, same, id⟩
  owed_alike _ := id

theorem Goal.kept_error {s : Session} {sh : Shape} {g : Goal sh} {e : Failure} :
    g.Kept s (.error e) ↔ s.diagnostics ≠ [] := by
  cases g with
  | subTerms env l u o => cases l <;> cases u <;> exact Iff.rfl
  | _ => exact Iff.rfl

namespace Contract.flat

variable {cs : List Constraint} {owing : Prop} {w : Moment} {e : Env} {o : Obligation}

def Results (P : Session → Prop) : Except Failure Unit → Moment → Prop :=
  Prog.Outcome (·.session.diagnostics ≠ []) (P ·.session)

section Programs

variable {A : Asks} {γ : Type} {P : Session → Prop}

theorem settles_of_rule {sh : Shape} {g : Goal sh} (sound : (flat cs).Sound w)
    (meets : (Rules.rule sh g).Meets (flat cs) (Rules.answer.Settles (flat cs)) (sh = .unit) ((flat cs).Post g w) w) :
    Rules.answer.Settles (flat cs) g w := by
  refine .intro sound (.noted (meets.mono fun r v leads post => ?_) (flat cs).post_later)
  have post : g.Kept v.session r := post
  obtain ⟨follows, refused, kept⟩ := leads.sound
  exact ⟨⟨⟨fun _ => id, id⟩, follows, refused, List.forall_mem_cons.mpr ⟨post, kept⟩⟩, post⟩

theorem settles_of_results {g : Goal .unit} (sound : (flat cs).Sound w) (brings : ∀ s, P s → g.Kept s (.ok ()))
    (meets : (Rules.rule .unit g).Meets (flat cs) (Rules.answer.Settles (flat cs)) (Shape.unit = .unit) (Results P) w) :
    Rules.answer.Settles (flat cs) g w :=
  settles_of_rule sound <| meets.mono fun r v _ results =>
    match r, results with
    | .ok (), holds => brings v.session holds
    | .error _, failed => Goal.kept_error.mpr failed

theorem leads_of_gains {s' : Session} {r? : Option Record} {e? : Option (InferIndex × InferIndex)}
    (sound : (flat cs).Sound w) (touches : w.session.Touches s') (gains : w.session.Gains s' r?)
    (links : w.session.Links e? s') (implied : ∀ r, r? = some r → r.Implied cs)
    (edge : ∀ i j, e? = some (i, j) → .edge i j ∈ cs) : (flat cs).Leads w ⟨s', w.answers⟩ := by
  have same : s'.diagnostics = w.session.diagnostics := by
    obtain ⟨_, _, _, _, _, rfl⟩ := touches
    rfl
  have more : ∀ r, w.session.Has r → s'.Has r := fun r has => (gains.has r).mpr (.inl has)
  have fails : w.session.diagnostics ≠ [] → s'.diagnostics ≠ [] := by rw [same]; exact id
  refine ⟨⟨more, fails⟩, sound.1.of_gains gains links implied edge, ?_, fun a member => ?_⟩
  · rw [same]
    exact sound.2.1
  · exact (sound.2.2 a member).of_more more fails

theorem missing_of_gains {w' : Moment} {s' : Session} {r : Record} {n : Nat} (leads : (flat cs).Leads w w')
    (left : missing cs w.session < n + 1) (gains : w'.session.Gains s' (some r)) (new : r ∈ Constraint.possible cs)
    (free : ¬ w'.session.Has r) : missing cs s' < n := by
  have less : missing cs s' < missing cs w'.session :=
    Constraint.missing_lt (fun r has => (gains.has r).mpr (.inl has)) new free ((gains.has r).mpr (.inr rfl))
  have before : missing cs w'.session ≤ missing cs w.session := Constraint.missing_le leads.1.1
  omega

theorem meets_record {a : Action γ} {f : γ → Prog Unit} {Q : Except Failure Unit → Moment → Prop}
    (h : ∀ w', (flat cs).Leads w w' → ∃ x s', a.exec w'.session = (.ok x, s') ∧
      (flat cs).Leads w' ⟨s', w'.answers⟩ ∧ (f x).Meets (flat cs) A owing Q ⟨s', w'.answers⟩) :
    (Prog.perform a >>= f).Meets (flat cs) A owing Q w := by
  refine .perform_bind fun w' leads => ?_
  obtain ⟨x, s', exec, next, meets⟩ := h w' leads
  simp only [Moment.after, exec]
  exact ⟨next, meets, fun _ => False.elim⟩

theorem meets_refuse {because : Because} (loud : ¬ Consistent cs) :
    (Prog.refuse e o because).Meets (flat cs) A owing (Results P) w := by
  refine .perform fun v leads => ?_
  obtain ⟨report, trace, refused⟩ := Action.exec_refuse (α := Unit) e o because v.session
  simp only [Moment.after, refused]
  let s' : Session := { v.session with
    trace := trace
    diagnostics := v.session.diagnostics ++ [o.failure because]
    nextReport := v.session.nextReport + 1 }
  have more : ∀ r, v.session.Has r → s'.Has r := fun _ => id
  have failed : s'.diagnostics ≠ [] := by simp [s']
  obtain ⟨⟨kinds, records, successors, predecessors⟩, _, kept⟩ := leads.sound
  have next : (flat cs).Leads v ⟨s', v.answers⟩ := ⟨⟨more, fun _ => failed⟩,
    ⟨kinds, records, successors, predecessors⟩, fun _ => loud,
    fun a member => (kept a member).of_more more fun _ => failed⟩
  exact ⟨next, fun _ => id, fun u later => later.1.2 failed⟩

theorem meets_relay {g : Goal .unit} (may : owing) (allowed : ∀ v, (flat cs).Leads w v → A g v)
    (comes : ∀ v, (flat cs).Leads w v → g.Kept v.session (.ok ()) → P v.session) :
    (Prog.relay g).Meets (flat cs) A owing (Results P) w :=
  .relay fun v leads => ⟨allowed v leads, fun _ => may, fun r u later =>
    Prog.outcome_of_post Goal.kept_error.mp (comes u (leads.trans later)) r⟩

theorem meets_each {goals : List (Goal .unit)} (allowed : ∀ g ∈ goals, ∀ v, (flat cs).Leads w v → A g v)
    (comes : ∀ v, (flat cs).Leads w v → (∀ g ∈ goals, g.Kept v.session (.ok ())) → P v.session) :
    (Prog.each goals).Meets (flat cs) A owing (Results P) w :=
  .each fun v leads => ⟨fun g member => allowed g member v leads, fun u later =>
    ⟨fun posts => comes u (leads.trans later) posts, fun _ _ _ post => Goal.kept_error.mp post⟩⟩

end Programs

section Plain

variable {A : Asks} {P : Session → Prop}

theorem meets_subTys {l u : Ty} (lower : l.Plain) (upper : u.Plain) (same : l = u → ∀ s, P s)
    (apart : l ≠ u → ∀ v, (flat cs).Leads w v →
      (Rules.subReduced e.fork l u l.red u.red o).Meets (flat cs) A owing (Results P) v) :
    (Rules.subTys e l u o).Meets (flat cs) A owing (Results P) w := by
  unfold Rules.subTys
  split
  · rename_i equal
    exact .ok fun v _ => same equal v.session
  rename_i distinct
  have plain {t : Ty} (plain : t.Plain) : Rules.withoutCopyPerm e.fork t.red = pure t.red := by
    cases t <;> first | exact plain.elim | rfl
  have whole : Rules.subApart e.fork l u o = (Prog.awaited (pure l.red) >>= fun l' =>
      Prog.awaited (pure u.red) >>= fun u' => Rules.subReduced e.fork l u l' u' o) := by
    rw [← plain lower, ← plain upper]
    cases l <;> cases u <;> first | exact lower.elim | exact upper.elim | rfl
  refine .awaited (.traced ?_)
  rw [whole]
  have reads (t : RedTy) (v : Moment) : (Prog.awaited (pure t)).Meets (flat cs) A owing
      (fun r _ => r = .ok t) v := .awaited (.ok fun _ _ => rfl)
  refine .bind (reads l.red w) (fun l' v leads equal => ?_) fun _ _ _ wrong => nomatch wrong
  cases equal
  refine .bind (reads u.red v) (fun u' v' leads' equal => ?_) fun _ _ _ wrong => nomatch wrong
  cases equal
  exact apart distinct v' (leads.trans leads')

end Plain

section Settling

open Rules (addLowerBound addUpperBound relate recordLower recordUpper recordEdge)

variable {arity : TyName → Nat} {l u t : Ty} {i j : InferIndex}

theorem settles_subTerms (sound : (flat cs).Sound w)
    (tys : ∀ v, (flat cs).Leads w v → Rules.answer.Settles (flat cs) (.subTys e l u o) v) :
    Rules.answer.Settles (flat cs) (.subTerms e (.ty l) (.ty u) o) w :=
  settles_of_results sound (fun _ => id) (meets_relay (P := (Session.Keeps · l u)) rfl tys fun _ _ => id)

theorem sure_subPermsOfHeads {h h' : Head} : (flat cs).Sure (.subPermsOfHeads e ⟨h, .my⟩ ⟨h', .my⟩ o) :=
  fun _ sound => settles_of_rule sound (.ok fun _ _ => trivial)

theorem sure_subHeads {n m : TyName} {as bs : List Term} (lower : (Ty.named n as).Flat arity)
    (upper : (Ty.named m bs).Flat arity) (right : Consistent cs → Ty.named n as = .named m bs)
    (args : n = m → ∀ pair ∈ as.zip bs, ∃ l u, pair = (.ty l, .ty u) ∧ (flat cs).Sure (.subTys e l u o)) :
    (flat cs).Sure (.subHeads e (.named n as) (.named m bs) o) := by
  intro w sound
  refine settles_of_results (P := fun _ => Ty.named n as = .named m bs) sound (fun _ => id) ?_
  change (Rules.subHeads e (.named n as) (.named m bs) o).Meets _ _ _ _ _
  rw [Rules.subHeads]
  split
  · rename_i same
    subst same
    have length : as.length = bs.length := lower.1.trans upper.1.symm
    rw [Session.subArguments_eq length]
    refine (meets_each (P := fun _ => Ty.named n as = .named n bs) (fun g member v leads => ?_)
      fun v leads kept => ?_ : Prog.Meets _ _ _ _ _ _).relayed
    · obtain ⟨pair, listed, rfl⟩ := List.mem_map.mp member
      obtain ⟨l, u, rfl, sure⟩ := args rfl pair listed
      exact settles_subTerms leads.sound fun v' later => sure v' later.sound
    · refine congrArg (Ty.named n) (List.ext_getElem length fun k inside inside' => ?_)
      have listed : (as[k], bs[k]) ∈ as.zip bs :=
        List.mem_iff_getElem.mpr ⟨k, by simp [inside, inside'], List.getElem_zip⟩
      obtain ⟨l, u, same, _⟩ := args rfl _ listed
      have kept := kept _ (List.mem_map_of_mem (f := fun pair => Goal.subTerms e pair.1 pair.2 o) listed)
      obtain ⟨first, second⟩ := Prod.mk.inj same
      have flatl := lower.2.mem (List.getElem_mem inside)
      have flatu := upper.2.mem (List.getElem_mem inside')
      rw [first] at kept flatl ⊢
      rw [second] at kept flatu ⊢
      obtain ⟨_, ⟨⟩, flatl⟩ := flatl
      obtain ⟨_, ⟨⟩, flatu⟩ := flatu
      exact congrArg Term.ty (Session.Keeps.eq_of_flat flatl flatu kept)
  · rename_i apart
    refine meets_refuse fun consistent => apart ?_
    injection right consistent

theorem sure_subTys (lower : l.Flat arity) (upper : u.Flat arity) (right : Consistent cs → l = u) :
    (flat cs).Sure (.subTys e l u o) := by
  induction l using Ty.head_induction generalizing u e with
  | step l ih =>
  obtain ⟨n, as, rfl, _⟩ := lower.named
  obtain ⟨m, bs, rfl, _⟩ := upper.named
  intro w sound
  refine settles_of_results (P := fun _ => Ty.named n as = .named m bs) sound (fun _ => id) ?_
  refine meets_subTys trivial trivial (fun same _ => same) fun _ v leads => ?_
  have args : n = m → ∀ pair ∈ as.zip bs, ∃ l u, pair = (.ty l, .ty u) ∧
      (flat cs).Sure (.subTys e.fork l u o) := by
    rintro rfl ⟨a, b⟩ listed
    obtain ⟨memberl, memberu⟩ := List.of_mem_zip listed
    obtain ⟨l, rfl, flatl⟩ := lower.2.mem memberl
    obtain ⟨u, rfl, flatu⟩ := upper.2.mem memberu
    refine ⟨l, u, rfl, ih n as l rfl memberl flatl flatu fun consistent => ?_⟩
    injection right consistent with _ same
    subst same
    exact Term.ty.inj (fst_eq_snd_of_mem_zip listed)
  have heads := sure_subHeads lower upper right args
  refine (meets_each (P := fun _ => Ty.named n as = .named m bs) (fun g member v' later => ?_)
    fun v' later kept => ?_ : Prog.Meets _ _ _ _ _ _).awaited
  · simp only [List.mem_cons, List.not_mem_nil, or_false] at member
    rcases member with rfl | rfl
    · exact sure_subPermsOfHeads v' later.sound
    · exact heads v' later.sound
  · exact kept _ (List.mem_cons_of_mem _ List.mem_cons_self)

theorem settles_check (sound : (flat cs).Sound w) (lower : l.Flat arity) (upper : u.Flat arity)
    (right : Consistent cs → l = u) : Rules.answer.Settles (flat cs) (.subTerms e (.ty l) (.ty u) o) w :=
  settles_subTerms sound fun v leads => sure_subTys lower upper right v leads.sound

theorem settles_below (sound : (flat cs).Sound w) (lower : t.Flat arity)
    (adds : ∀ e v, (flat cs).Leads w v → Rules.answer.Settles (flat cs) (.addLowerBound e j (.ty t) o) v) :
    Rules.answer.Settles (flat cs) (.subTys e t (.infer j) o) w := by
  obtain ⟨n, as, rfl, _⟩ := lower.named
  refine settles_of_results (P := (Session.Has · (.lower j (.ty (.named n as))))) sound (fun _ => id) ?_
  refine meets_subTys trivial trivial nofun fun _ v leads => ?_
  exact meets_relay rfl (fun v' later => adds _ v' (leads.trans later)) fun _ _ => id

theorem settles_above (sound : (flat cs).Sound w) (upper : t.Flat arity)
    (adds : ∀ e v, (flat cs).Leads w v → Rules.answer.Settles (flat cs) (.addUpperBound e i (.ty t) o) v) :
    Rules.answer.Settles (flat cs) (.subTys e (.infer i) t o) w := by
  obtain ⟨n, as, rfl, _⟩ := upper.named
  refine settles_of_results (P := (Session.Has · (.upper i (.ty (.named n as))))) sound (fun _ => id) ?_
  refine meets_subTys trivial trivial nofun fun _ v leads => ?_
  exact meets_relay rfl (fun v' later => adds _ v' (leads.trans later)) fun _ _ => id

theorem inside_of_mentioned (sound : (flat cs).Sound w) (named : i ∈ mentioned cs) :
    i < w.session.inferVars.length := by
  obtain ⟨v, found, _⟩ := sound.1.kinds i named
  exact (List.getElem?_eq_some_iff.mp found).1

theorem sure_checkFacts (named : i ∈ mentioned cs) : (flat cs).Sure (.checkFacts e i) := by
  intro w sound
  refine settles_of_results (P := fun _ => True) sound (fun _ => id) (meets_record fun w' leads => ?_)
  obtain ⟨v, found, _⟩ := leads.sound.1.kinds i named
  refine ⟨v, w'.session, (Action.exec_inferVar i _).trans (by rw [found]; rfl), .refl leads.sound, ?_⟩
  cases v.lower with
  | none => exact .ok fun _ _ => trivial
  | some b =>
    have none_ : v.facts = [] := List.eq_nil_iff_forall_not_mem.mpr fun fact listed =>
      leads.sound.1.records (.fact i fact.1) ((Session.has_fact_iff found).mpr ⟨fact, listed, rfl⟩)
    simp only [none_, List.map_nil]
    exact meets_each (fun _ member => absurd member List.not_mem_nil) fun _ _ _ => trivial

section Bounds

variable (flats : ∀ c ∈ cs, c.Flat arity)
include flats

theorem flat_of_reaches (reaches : Reaches cs t i) : t.Flat arity := by
  obtain ⟨_, lower, _⟩ := reaches
  exact flats _ lower

theorem flat_of_caps (caps : Caps cs i t) : t.Flat arity := by
  obtain ⟨_, upper, _⟩ := caps
  exact flats _ upper

theorem settles_addLowerBound (n : Nat) (sound : (flat cs).Sound w) (left : missing cs w.session < n)
    (reaches : Reaches cs t i) : Rules.answer.Settles (flat cs) (.addLowerBound e i (.ty t) o) w := by
  induction n generalizing w e i o with
  | zero => exact absurd left (Nat.not_lt_zero _)
  | succ n ih =>
  have lower := flat_of_reaches flats reaches
  refine settles_of_results (P := (Session.Has · (.lower i (.ty t)))) sound (fun _ => id) ?_
  refine meets_record fun w' leads => ?_
  have spec := Rules.recordLower_spec e i (.ty t) o w'.session
  have links := Rules.links_recordLower e i (.ty t) o w'.session
  generalize (recordLower e i (.ty t) o).exec w'.session = result at spec links
  match result, spec with
  | (.error _, s'), ⟨_, escapes⟩ =>
    exact (escapes (inside_of_mentioned leads.sound reaches.mentioned) lower.freeVariables).elim
  | (.ok (.inl ⟨m, o'⟩), s'), ⟨same, has⟩ =>
    obtain rfl : s' = w'.session := same
    obtain ⟨u, rfl, reaches'⟩ := leads.sound.1.records _ has
    have lower' := flat_of_reaches flats reaches'
    refine ⟨_, _, rfl, .refl leads.sound, meets_relay rfl (fun v later => ?_) fun v later kept => ?_⟩
    · exact settles_check later.sound lower lower' fun consistent => consistent.reached reaches reaches'
    · rw [Session.Keeps.eq_of_flat lower lower' kept]
      exact later.1.1 _ has
  | (.ok (.inr uppers), s'), ⟨touches, gains, free, known⟩ =>
    have recorded : s'.Has (.lower i (.ty t)) := (gains.has _).mpr (.inr rfl)
    have next : (flat cs).Leads w' ⟨s', w'.answers⟩ := leads_of_gains leads.sound touches gains links
      (by rintro r ⟨⟩; exact ⟨t, rfl, reaches⟩) nofun
    have fewer : missing cs s' < n := missing_of_gains leads left gains reaches.possible (free _)
    refine ⟨_, _, rfl, next, Prog.meets_eachGroup Goal.kept_error.mp fun w₁ first => ⟨?_, fun w₂ second => ⟨?_,
      fun w₃ third => ⟨?_, ?_⟩⟩⟩⟩
    · refine List.forall_mem_map.mpr fun b listed => ?_
      obtain ⟨u, same, caps⟩ := leads.sound.1.records _ ((known b.term).mpr ⟨b, listed, rfl⟩)
      rw [same]
      exact settles_check first.sound lower (flat_of_caps flats caps) fun consistent =>
        consistent.capped reaches caps
    · obtain ⟨v, found, kind⟩ := second.sound.1.kinds i reaches.mentioned
      rw [Rules.passToSuccessors, found]
      refine List.forall_mem_map.mpr fun j listed => ?_
      rw [kind]
      have reaches' := reaches.next (second.sound.1.successors i v found j listed)
      refine settles_subTerms second.sound fun v' later => settles_below later.sound lower fun e v'' last => ?_
      refine ih last.sound (Nat.lt_of_le_of_lt ?_ fewer) reaches'
      exact Constraint.missing_le ((first.trans second).trans (later.trans last)).1.1
    · exact List.forall_mem_singleton.mpr (sure_checkFacts reaches.mentioned w₃ third.sound)
    · rintro _ v last _ us rfl
      exact ((first.trans second).trans (third.trans last)).1.1 _ recorded

theorem sure_addLowerBound (reaches : Reaches cs t i) : (flat cs).Sure (.addLowerBound e i (.ty t) o) :=
  fun _ sound => settles_addLowerBound flats _ sound (Nat.lt_succ_self _) reaches

theorem settles_addUpperBound (n : Nat) (sound : (flat cs).Sound w) (left : missing cs w.session < n)
    (caps : Caps cs i t) : Rules.answer.Settles (flat cs) (.addUpperBound e i (.ty t) o) w := by
  induction n generalizing w e i o with
  | zero => exact absurd left (Nat.not_lt_zero _)
  | succ n ih =>
  have upper := flat_of_caps flats caps
  refine settles_of_results (P := (Session.Has · (.upper i (.ty t)))) sound (fun _ => id) ?_
  refine meets_record fun w' leads => ?_
  have spec := Rules.recordUpper_spec e i (.ty t) o w'.session
  have links := Rules.links_recordUpper e i (.ty t) o w'.session
  generalize (recordUpper e i (.ty t) o).exec w'.session = result at spec links
  match result, spec with
  | (.error _, s'), ⟨_, escapes⟩ =>
    exact (escapes (inside_of_mentioned leads.sound caps.mentioned) upper.freeVariables).elim
  | (.ok none, s'), ⟨same, has⟩ =>
    obtain rfl : s' = w'.session := same
    exact ⟨_, _, rfl, .refl leads.sound, .ok fun v later => later.1.1 _ has⟩
  | (.ok (some lower), s'), ⟨touches, gains, free, known⟩ =>
    have recorded : s'.Has (.upper i (.ty t)) := (gains.has _).mpr (.inr rfl)
    have next : (flat cs).Leads w' ⟨s', w'.answers⟩ := leads_of_gains leads.sound touches gains links
      (by rintro r ⟨⟩; exact ⟨t, rfl, caps⟩) nofun
    have fewer : missing cs s' < n := missing_of_gains leads left gains caps.possible free
    have passed {w₁ w₂ : Moment} (later : (flat cs).Leads ⟨s', w'.answers⟩ w₁) (last : (flat cs).Leads w₁ w₂) :
        ∀ g ∈ Rules.passToPredecessors e i (.ty t) o w₁.session, Rules.answer.Settles (flat cs) g w₂ := by
      obtain ⟨v, found, _⟩ := later.sound.1.kinds i caps.mentioned
      rw [Rules.passToPredecessors, found]
      refine List.forall_mem_map.mpr fun j listed => ?_
      have caps' := caps.before (later.sound.1.predecessors i v found j listed)
      exact ih last.sound (Nat.lt_of_le_of_lt (Constraint.missing_le (later.trans last).1.1) fewer) caps'
    refine ⟨_, _, rfl, next, ?_⟩
    cases lower with
    | none =>
      refine .get_bind fun w₁ first => Prog.meets_eachBesides Goal.kept_error.mp (fun g listed v later => ?_)
        fun _ v later next _ => ?_
      · exact passed first later g listed
      · exact (first.trans (later.trans next)).1.1 _ recorded
    | some b =>
      refine Prog.meets_eachGroup Goal.kept_error.mp fun w₁ first => ⟨?_, fun w₂ second => ⟨?_, ?_⟩⟩
      · obtain ⟨u, same, reaches⟩ := leads.sound.1.records _ ((known b.term).mpr ⟨b, rfl, rfl⟩)
        rw [same]
        exact List.forall_mem_singleton.mpr <| settles_check first.sound (flat_of_reaches flats reaches) upper
          fun consistent => consistent.capped reaches caps
      · exact passed (first.trans second) (.refl second.sound)
      · rintro _ v last _ us rfl
        exact (first.trans (second.trans last)).1.1 _ recorded

theorem sure_addUpperBound (caps : Caps cs i t) : (flat cs).Sure (.addUpperBound e i (.ty t) o) :=
  fun _ sound => settles_addUpperBound flats _ sound (Nat.lt_succ_self _) caps

theorem meets_relate (member : .edge i j ∈ cs) :
    (relate e i j o).Meets (flat cs) (Rules.answer.Settles (flat cs)) owing
      (Results fun s => i = j ∨ s.Has (.edge i j)) w := by
  have namedi : i ∈ mentioned cs := Constraint.mentioned_of_mem member List.mem_cons_self
  have namedj : j ∈ mentioned cs :=
    Constraint.mentioned_of_mem member (List.mem_cons_of_mem _ List.mem_cons_self)
  refine meets_record fun w' leads => ?_
  have spec := Rules.recordEdge_spec i j w'.session
  have links := Rules.links_recordEdge i j w'.session
  have insidei := inside_of_mentioned leads.sound namedi
  have insidej := inside_of_mentioned leads.sound namedj
  generalize (recordEdge i j).exec w'.session = result at spec links
  match result, spec with
  | (.error _, s'), ⟨_, nowhere⟩ => exact (nowhere insidei insidej).elim
  | (.ok none, s'), ⟨same, has⟩ =>
    obtain rfl : s' = w'.session := same
    refine ⟨_, _, rfl, .refl leads.sound, .ok fun v later => ?_⟩
    exact (em (i = j)).imp_right fun apart => later.1.1 _ (has apart insidej)
  | (.ok (some (bound, uppers)), s'), ⟨touches, gains, _, _, lowerKnown, upperKnown⟩ =>
    have recorded : s'.Has (.edge i j) := (gains.has _).mpr (.inr rfl)
    have next : (flat cs).Leads w' ⟨s', w'.answers⟩ := leads_of_gains leads.sound touches gains links
      (by rintro r ⟨⟩; exact member) (by rintro _ _ ⟨⟩; exact member)
    refine ⟨_, _, rfl, next, Prog.meets_eachBesides Goal.kept_error.mp (fun g listed v later => ?_)
      fun _ v later next _ => ?_⟩
    · rcases List.mem_append.mp listed with listed | listed
      · obtain ⟨b, found, rfl⟩ := List.mem_map.mp listed
        obtain ⟨t, same, reaches⟩ := leads.sound.1.records _
          ((lowerKnown b.term).mpr ⟨b, Option.mem_toList.mp found, rfl⟩)
        rw [same]
        exact sure_addLowerBound flats (reaches.next member) v later.sound
      · obtain ⟨b, found, rfl⟩ := List.mem_map.mp listed
        obtain ⟨t, same, caps⟩ := leads.sound.1.records _ ((upperKnown b.term).mpr ⟨b, found, rfl⟩)
        rw [same]
        exact sure_addUpperBound flats (caps.before member) v later.sound
    · exact .inr ((later.trans next).1.1 _ recorded)

theorem sure_posed {c : Constraint} {g : Goal .unit} (member : c ∈ cs) (posed : c.Posed g) : (flat cs).Sure g := by
  intro w sound
  obtain ⟨e, o, rfl⟩ := posed
  cases c with
  | lower t i =>
    have reaches : Reaches cs t i := ⟨i, member, .refl⟩
    exact settles_below sound (flats _ member) fun e v leads => sure_addLowerBound flats reaches v leads.sound
  | upper i t =>
    have caps : Caps cs i t := ⟨i, member, .refl⟩
    exact settles_above sound (flats _ member) fun e v leads => sure_addUpperBound flats caps v leads.sound
  | edge i j =>
    refine settles_of_results (P := fun s => i = j ∨ s.Has (.edge i j)) sound (fun _ => id) ?_
    refine meets_subTys trivial trivial (fun same _ => .inl (Ty.infer.inj same)) fun _ v leads => ?_
    exact (meets_relate flats member).relayed

end Bounds

end Settling

end Contract.flat

def InferVar.Blank (v : InferVar) : Prop :=
  v.lower = none ∧ v.uppers = [] ∧ v.successors = [] ∧ v.predecessors = [] ∧ v.facts = []

namespace Session

variable {s : Session} (blank : ∀ v ∈ s.inferVars, v.Blank)
include blank

theorem not_has_of_blank (r : Record) : ¬ s.Has r := by
  rintro ⟨v, found, knows, _⟩
  obtain ⟨lower, uppers, successors, _, facts⟩ := blank v (List.mem_of_getElem? found)
  cases r <;> simp_all [InferVar.Knows]

theorem follows_of_blank {cs : List Constraint} (typed : ∀ c ∈ cs, ∀ i ∈ c.mentions, s.TypeVar i) :
    s.Follows cs where
  kinds i named := by
    obtain ⟨c, member, mentions⟩ := List.mem_flatMap.mp named
    exact typed c member i mentions
  records r has := (not_has_of_blank blank r has).elim
  successors i v found j listed := by
    rw [(blank v (List.mem_of_getElem? found)).2.2.1] at listed
    cases listed
  predecessors i v found j listed := by
    rw [(blank v (List.mem_of_getElem? found)).2.2.2.1] at listed
    cases listed

end Session

namespace Stage

open Contract (flat)

variable {β : Type} {arity : TyName → Nat} {cs : List Constraint} {goals : List (Goal .unit)}
variable {s : Session} {τ : Stage β}

structure Saturated (cs : List Constraint) (s : Session) : Prop where
  lowers : ∀ {t i}, .lower t i ∈ cs → s.Has (.lower i (.ty t))
  uppers : ∀ {i t}, .upper i t ∈ cs → s.Has (.upper i (.ty t))
  passes : ∀ {i j t}, .edge i j ∈ cs → s.Has (.lower i (.ty t)) → s.Has (.lower j (.ty t))
  checks : ∀ {i t u}, s.Has (.lower i (.ty t)) → s.Has (.upper i (.ty u)) → t = u

theorem Saturated.reached (saturated : Saturated cs s) {t : Ty} {i : InferIndex} (reaches : Reaches cs t i) :
    s.Has (.lower i (.ty t)) := by
  obtain ⟨k, lower, leq⟩ := reaches
  induction leq with
  | refl => exact saturated.lowers lower
  | tail _ edge ih => exact saturated.passes edge ih

theorem Saturated.consistent (saturated : Saturated cs s) : Consistent cs where
  lowers first second leq leq' :=
    Term.ty.inj ((saturated.reached ⟨_, first, leq⟩).lower_unique (saturated.reached ⟨_, second, leq'⟩))
  uppers lower leq upper := saturated.checks (saturated.reached ⟨_, lower, leq⟩) (saturated.uppers upper)

theorem not_failed {w : Moment} (sound : (flat cs).Sound w) (quiet : w.session.diagnostics = []) : ¬ w.Failed := by
  rintro ⟨⟨g, r⟩, member, fails⟩
  cases r with
  | ok => simp [Answer.fails] at fails
  | error e => exact Goal.kept_error.mp (sound.2.2 _ member) quiet

theorem eq_of_checked {w : Moment} {t u : Ty} (sound : (flat cs).Sound w) (lower : t.Flat arity)
    (upper : u.Flat arity) (checked : w.Checked (.ty t) (.ty u)) : t = u := by
  obtain ⟨env, o, member⟩ := checked
  exact Session.Keeps.eq_of_flat lower upper (sound.2.2 _ member)

section Ending

variable (flats : ∀ c ∈ cs, c.Flat arity) (blank : ∀ v ∈ s.inferVars, v.Blank)
variable (posed : ∀ c ∈ cs, ∃ g ∈ goals, c.Posed g) (poses : ∀ g ∈ goals, ∃ c ∈ cs, c.Posed g)
include flats blank posed poses

theorem saturated_of_rest (serves : Serves Rules.answer goals ⟨{ session := s }, []⟩ τ) (lives : τ.machine.lives = 0)
    (queue : τ.machine.queue = []) (sound : (flat cs).Sound τ.moment) (quiet : τ.machine.session.diagnostics = [])
    (answered : ∀ g ∈ goals, ∃ r, g.Kept τ.machine.session r) : Saturated cs τ.machine.session := by
  have kept {c : Constraint} (member : c ∈ cs) : τ.machine.session.Keeps c.lowerTy c.upperTy := by
    obtain ⟨_, listed, e, o, rfl⟩ := posed c member
    obtain ⟨r, kept⟩ := answered _ listed
    cases r with
    | ok => exact kept
    | error => exact (Goal.kept_error.mp kept quiet).elim
  have complete : τ.Complete := by
    refine ⟨queue, fun t alive => ?_⟩
    rw [lives] at alive
    exact absurd alive (Multiset.notMem_zero _)
  have run : ReflTransGen (Step Rules.answer Goal.Constrains) ⟨{ session := s }, []⟩ τ :=
    serves.steps fun g listed => by
      obtain ⟨c, _, e, o, rfl⟩ := poses g listed
      trivial
  have settled {d : Due} := settled_of_complete (d := d) (Session.not_has_of_blank blank) run complete
    (not_failed sound quiet)
  have reached {i : InferIndex} {t : Ty} (has : τ.machine.session.Has (.lower i (.ty t))) : t.Flat arity := by
    obtain ⟨_, ⟨⟩, reaches⟩ := sound.1.records _ has
    exact Contract.flat.flat_of_reaches flats reaches
  refine ⟨fun {t i} member => ?_, fun {i t} member => ?_, fun {i j t} member has => ?_, fun {i t u} has has' => ?_⟩
  · obtain ⟨_, _, rfl, _⟩ := (flats _ member : t.Flat arity).named
    exact kept member
  · obtain ⟨_, _, rfl, _⟩ := (flats _ member : t.Flat arity).named
    exact kept member
  · rcases (kept member : i = j ∨ _) with rfl | edge
    · exact has
    obtain ⟨u, reduces, m, bound, related⟩ := settled (d := .pass i j (.ty t)) ⟨edge, has⟩
    have flat := reached has
    obtain rfl : u = .ty t := by
      obtain ⟨_, _, rfl, _⟩ := flat.named
      rcases reduces with same | ⟨_, ⟨⟩, same, _⟩ <;> exact same
    obtain ⟨t', rfl, reaches⟩ := sound.1.records _ bound
    rcases related with same | checked
    · rwa [same] at bound
    · rwa [eq_of_checked sound flat (reached bound) checked]
  · obtain ⟨_, ⟨⟩, caps⟩ := sound.1.records _ has'
    exact eq_of_checked sound (reached has) (Contract.flat.flat_of_caps flats caps)
      (settled (d := .check i (.ty t) (.ty u)) ⟨has, has'⟩)

/-- Flat constraints are decided: in whatever order they come in and events are handled, the run ends. It
ends without a diagnostic exactly if the constraints are consistent, and then the lower bound of every
variable is the type that reaches it, if there is one. -/
theorem flat_constraints_decided (typed : ∀ c ∈ cs, ∀ i ∈ c.mentions, s.TypeVar i)
    (quiet : s.diagnostics = []) (serves : Serves Rules.answer goals ⟨{ session := s }, []⟩ τ) :
    τ.Ends Rules.answer ∧ (τ.machine.queue = [] → τ.machine.running = 0 ∧
      (τ.machine.session.diagnostics = [] ↔ Consistent cs) ∧
      (Consistent cs → ∀ i t, τ.machine.session.Has (.lower i t) ↔ ∃ u, t = .ty u ∧ Reaches cs u i)) := by
  have start : (flat cs).Sound ⟨s, []⟩ := ⟨Session.follows_of_blank blank typed, fun some_ => (some_ quiet).elim,
    fun _ member => absurd member List.not_mem_nil⟩
  have idle : Coherent (Rules.answer.Settles (flat cs)) (noAims (flat cs)) _ _ ⟨{ session := s }, []⟩ :=
    coherent_idle (β := β) _ start
  obtain ⟨roll, coherent, answered, _⟩ := idle.serves Rules.verified_settles (fun g listed w sound => by
    obtain ⟨c, member, posed⟩ := poses g listed
    exact Contract.flat.sure_posed flats member posed w sound) serves
  have sound : (flat cs).Sound τ.moment := coherent.correct.sound
  refine ⟨coherent.ends id, fun queue => ⟨(coherent.told_of_rest id queue).1, ?_⟩⟩
  have lives := coherent.lives_of_rest id queue
  have saturated (calm : τ.machine.session.diagnostics = []) : Saturated cs τ.machine.session := by
    refine saturated_of_rest flats blank posed poses serves lives queue sound calm fun g listed => ?_
    rcases answered g listed with ⟨_, r, kept⟩ | ⟨t, alive, _⟩
    · exact ⟨r, kept⟩
    · rw [scene, lives] at alive
      exact absurd alive (Multiset.notMem_zero _)
  have calm (consistent : Consistent cs) : τ.machine.session.diagnostics = [] := by
    by_contra refused
    exact sound.2.1 refused consistent
  refine ⟨⟨fun none_ => (saturated none_).consistent, calm⟩, fun consistent i t => ⟨sound.1.records _, ?_⟩⟩
  rintro ⟨u, rfl, reaches⟩
  exact (saturated (calm consistent)).reached reaches

end Ending

section Circle

/-- A circle of variables with a bound on either side. -/
def circle : List Constraint :=
  [.edge 0 1, .upper 2 .bool, .edge 1 2, .lower .bool 1, .edge 2 0]

def pose (c : Constraint) : Goal .unit :=
  .subTys (.root []) c.lowerTy c.upperTy ⟨.subtype default (.ty c.lowerTy) (.ty c.upperTy), []⟩

def poseAll (cs : List Constraint) : Stage Empty :=
  run Rules.answer 500 (calling Rules.answer "constraint" ⟨{ session := threeVariables }, []⟩ (cs.map pose))

theorem consistent_circle : Consistent circle where
  lowers first second _ _ := by
    simp only [circle, List.mem_cons, reduceCtorEq, Constraint.lower.injEq, List.not_mem_nil, or_false,
      false_or] at first second
    rw [first.1, second.1]
  uppers first _ second := by
    simp only [circle, List.mem_cons, reduceCtorEq, Constraint.lower.injEq, Constraint.upper.injEq,
      List.not_mem_nil, or_false, false_or] at first second
    rw [first.1, second.2]

theorem flat_constraints_decided_circle : Consistent circle ∧ (poseAll circle).machine.queue = [] ∧
    (poseAll circle).machine.session.diagnostics = [] ∧
    (poseAll circle).machine.session.Has (.lower 0 (.ty .bool)) := by
  have rest : (poseAll circle).machine.queue = [] := by
    rw [← List.isEmpty_iff]
    decide +kernel
  have serves : Serves Rules.answer (circle.map pose) ⟨{ session := threeVariables }, []⟩ (poseAll circle) :=
    serves_calling "constraint" _ _ (turns_run Rules.answer 500 _)
  have flats : ∀ c ∈ circle, c.Flat fun _ => 0 := by
    simp [circle, Constraint.Flat, Ty.bool, Ty.primitive, Ty.Flat, Term.AllFlat]
  have blank : ∀ v ∈ threeVariables.inferVars, v.Blank := by
    intro v member
    rw [List.eq_of_mem_replicate member]
    exact ⟨rfl, rfl, rfl, rfl, rfl⟩
  have typed : ∀ c ∈ circle, ∀ i ∈ c.mentions, threeVariables.TypeVar i := by
    simp [circle, Constraint.mentions, Session.TypeVar, threeVariables]
  have posed : ∀ c ∈ circle, ∃ g ∈ circle.map pose, c.Posed g := fun c member =>
    ⟨pose c, List.mem_map_of_mem member, _, _, rfl⟩
  have poses : ∀ g ∈ circle.map pose, ∃ c ∈ circle, c.Posed g := fun g member => by
    obtain ⟨c, listed, rfl⟩ := List.mem_map.mp member
    exact ⟨c, listed, _, _, rfl⟩
  obtain ⟨_, decided, bounds⟩ := (flat_constraints_decided flats blank posed poses typed rfl serves).2 rest
  have reaches : Reaches circle .bool 0 :=
    ⟨1, by simp [circle], .head (b := 2) (by simp [circle]) (.single (by simp [circle]))⟩
  exact ⟨consistent_circle, rest, decided.mpr consistent_circle,
    (bounds consistent_circle 0 _).mpr ⟨_, rfl, reaches⟩⟩

end Circle

end Stage

end Ownership
