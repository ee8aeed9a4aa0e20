import Ownership.Proofs.GroundTests
import Ownership.Proofs.SoloRuns

namespace Ownership

open Relation (ReflTransGen TransGen)

/-- The nodes that a term names. Leases count if they are looked through. -/
def Term.Names (deep : Prop) (t : Term) : Node → Prop
  | .infer i => i ∈ t.infers
  | .var x => deep ∧ ∃ place ∈ t.leases, x ∈ place.occurrences

theorem Term.within_of_names {deep : Prop} {N : Node → Prop} {t : Term} (all : ∀ n, t.Names deep n → N n) :
    t.Within deep N :=
  ⟨Term.in_asking fun i inside => all (.infer i) inside,
    fun looks place listed x root => all (.var x) ⟨looks, place, listed, root⟩⟩

theorem Ty.asks_head {t : Ty} {A : InferIndex → Prop} {i : InferIndex} (asks : t.In (.asking A)) (head : t.head = .infer i) :
    A i := by
  have inside := asks.head
  rw [head] at inside
  exact inside.resolve_left fun same => by cases same

theorem Place.eq_root {place : Place} {x y : Variable} (first : x ∈ place.occurrences) (second : y ∈ place.occurrences) :
    y = x := by
  induction place with
  | var v => rw [List.mem_singleton.mp first, List.mem_singleton.mp second]
  | field base f ih | index base ih => exact ih first second
  | infer | error => cases first

theorem InferVar.lower_of_evidence {v : InferVar} {p : Predicate} {b : Bound} (bounded : v.evidence p = .bounded b) :
    v.lower = some b := by
  unfold evidence at bounded
  split at bounded
  · cases bounded
  · split at bounded
    · cases bounded
    · split at bounded <;> cases bounded
      assumption

namespace Session

variable {s : Session} {deep quiet waits owing : Prop} {N : Node → Prop} {env e : Env} {i : InferIndex} {p : Predicate}
variable {w : Moment}

/-- Testing the second node goes on with the first. -/
def Consults (s : Session) (deep : Prop) (m n : Node) : Prop := ∃ t, s.term? n = some t ∧ t.Names deep m

theorem closed_transGen (n : Node) : s.Closed deep fun m => TransGen (s.Consults deep) m n :=
  fun _ below t known => Term.within_of_names fun _ named => .head ⟨t, known, named⟩ below

section Steps

theorem lower?_of_leads {v : InferVar} {w' : Moment} (leads : (s.grounded env quiet waits).Leads w w')
    (found : w'.session.inferVars[i]? = some v) : s.lower? i = v.lower := by
  rw [← leads.sound.2.2.2.2 i, lower?, found]
  rfl

theorem meets_wait (may : waits) (enough : InferVar → Bool) {α : Type} {f : InferVar → Prog α}
    {Q : Except Failure α → Moment → Prop} (known : ∀ v w, s.lower? i = v.lower →
      (f v).Settles (s.grounded env quiet waits) owing Q w) (failed : ∀ x w, Q (.error x) w) :
    (do Prog.wait e i enough; f (← Action.inferVar i)).Settles (s.grounded env quiet waits) owing Q w :=
  fun _ _ => ⟨may, fun _ => .inferVar_bind (fun w' v later found => known v w' (lower?_of_leads later found))
    fun w' _ => failed _ w'⟩

theorem tests_lowerBound (may : waits) : s.Tests env quiet waits (.lowerBound e i) := by
  refine sure_of_rule fun w _ => ?_
  change (Rules.lowerBound e i).Settles _ _ (fun r _ => ∀ b, r = .ok (some b) → s.lower? i = some b) w
  unfold Rules.lowerBound
  refine .inferVar_bind (fun w' v leads found => ?_) fun _ _ _ wrong => by cases wrong
  split
  · rename_i b bound
    intro _ _ b' same
    cases same
    rw [lower?_of_leads leads found, bound]
  · refine meets_wait may _ (fun v w bound _ _ b same => ?_) fun _ _ _ wrong => by cases wrong
    rw [bound]
    exact Except.ok.inj same

theorem tests_evidence (may : waits) : s.Tests env quiet waits (.evidence e i p) := by
  refine sure_of_rule fun w _ => ?_
  change (Rules.evidence e i p).Settles _ _ (fun r _ => ∀ b, r = .ok (.bounded b) → s.lower? i = some b) w
  unfold Rules.evidence
  refine .inferVar_bind (fun w' v leads found => ?_) fun _ _ _ wrong => by cases wrong
  dsimp only
  split
  · intro _ _ b same
    rw [lower?_of_leads leads found]
    exact InferVar.lower_of_evidence (Except.ok.inj same)
  · refine meets_wait may _ (fun v w bound _ _ b same => ?_) fun _ _ _ wrong => by cases wrong
    rw [bound]
    exact InferVar.lower_of_evidence (Except.ok.inj same)

theorem meets_report (loud : ¬ quiet) {d : Diagnostic} :
    (Prog.perform (Action.report e d)).Settles (s.grounded env quiet waits) owing (fun _ _ => True) w := by
  refine .perform fun w' leads => ?_
  obtain ⟨s', exec, tells⟩ := Action.exec_report_tells e d w'.session
  obtain ⟨program, tys, _, least, lowers⟩ := leads.sound
  have more : w'.session.diagnostics.length ≤ s'.diagnostics.length := by
    rw [tells.diagnostics, List.length_append]
    exact Nat.le_add_right _ _
  simp only [exec, Moment.after]
  exact ⟨⟨more, tells.akin.program.trans program, tells.akin.variableTys.trans tys, fun calm => absurd calm loud,
    Nat.le_trans least more, lowers.trans (.of_inferVars tells.akin.inferVars)⟩, fun _ => id, fun _ _ => trivial⟩

/-- A field is looked for in the lower bounds of the owner. -/
theorem tests_fieldTy (loud : ¬ quiet) {owner : Ty} {f : Field} (heads : ∀ i, owner.head = .infer i →
    waits ∧ ∀ u o, s.lower? i = some ⟨.ty u, o⟩ → s.Tests env quiet waits (.fieldTy e u f)) :
    s.Tests env quiet waits (.fieldTy e owner f) := by
  cases head : owner.head with
  | infer i =>
    obtain ⟨may, sure⟩ := heads i head
    refine sure_of_rule fun w _ => ?_
    refine Prog.Meets.mono (Q := fun r _ => s.Projects owner r) ?_ fun _ _ _ projects =>
      ⟨fun known => absurd head (known i), projects⟩
    change (Rules.fieldTy e owner f).Settles _ _ _ _
    unfold Rules.fieldTy
    simp only [show owner.red.head = _ from head]
    refine .bind (.ask fun v leads => ⟨tests_lowerBound may v leads.sound, nofun, fun r _ _ post => post⟩)
      (fun found v _ known => ?_) fun x _ _ _ => projects_error owner x
    split
    · rename_i u origin
      have bound : s.lower? i = some ⟨.ty u, origin⟩ := known _ rfl
      refine .bind (.ask fun v leads => ⟨sure u origin bound v leads.sound, nofun, fun r _ _ post => post.2⟩)
        (fun t v _ inner => ?_) fun x _ _ _ => projects_error owner x
      rintro _ _ plain deep N closed within _ ⟨⟩
      have here : N (.infer i) := Ty.asks_head within.1 head
      have below : (Term.ty u).Within deep N := closed (.infer i) here (.ty u) (by rw [term?, bound]; rfl)
      obtain ⟨asks, leases⟩ := inner plain deep N closed below t rfl
      refine ⟨(Ty.In.red within.1).1.applyTo asks, fun looks place member => ?_⟩
      rcases List.mem_append.mp (Ty.leases_applyTo _ _ member) with outer | inner
      · exact within.2 looks place (owner.leases_perm outer)
      · exact leases looks place inner
    · refine .inferVar_bind (fun _ _ _ _ => ?_) fun _ _ => projects_error owner _
      exact .bind (meets_report loud) (fun _ _ _ _ _ _ => projects_error owner _) fun x _ _ _ => projects_error owner x
  | _ => exact sure_field fun i same => by cases head.symm.trans same

end Steps

/-- Tests that come to the node end. -/
def Tries (s : Session) (env : Env) (deep waits : Prop) : Node → Prop
  | .infer i => s.TestsInfer env False waits deep i ∧
    ∀ e owner f, owner.head = .infer i → s.Tests env False waits (.fieldTy e owner f)
  | .var x => deep → ∀ place : Place, x ∈ place.occurrences → s.TestsPlaces env False waits [place]

/-- A place without a root has no type. -/
theorem tests_rootless {place : Place} (rootless : place.occurrences = []) : s.TestsPlaces env False waits [place] := by
  have untyped {owing : Prop} (e : Env) (w : Moment) : (Rules.placeTy e place).Settles (s.grounded env False waits) owing
      (fun r _ => s.placeTy? place = none ∧ ∀ t, r ≠ .ok t) w := by
    induction place generalizing w with
    | var v => cases rootless
    | field base f ih =>
      refine .bind (ih rootless w).awaited (fun t _ _ never => absurd rfl (never.2 t)) fun _ _ _ never => ?_
      exact ⟨by rw [placeTy?, never.1]; rfl, fun _ wrong => by cases wrong⟩
    | index | infer | error => exact fun _ _ => ⟨rfl, fun _ wrong => by cases wrong⟩
  refine List.forall_mem_singleton.mpr fun e p _ => ⟨sure_of_rule fun w _ => ?_, sure_of_rule fun w _ => ?_⟩ <;>
  · refine .bind (untyped e w).awaited (fun t _ _ never => absurd rfl (never.2 t)) fun _ _ _ never known => ?_
    obtain ⟨_, typed, _, _⟩ := known
    cases never.1.symm.trans typed

section Nodes

variable (tries : ∀ n, N n → s.Tries env deep waits n)
include tries

theorem tests_leases {t : Term} (within : t.Within deep N) (looks : deep) : s.TestsPlaces env False waits t.leases := by
  intro place member
  have own := List.mem_singleton_self place
  cases occurs : place.occurrences with
  | nil => exact tests_rootless occurs place own
  | cons x rest =>
    have root : x ∈ place.occurrences := occurs ▸ List.mem_cons_self
    exact tries (.var x) (within.2 looks place member x root) looks place root place own

theorem tests_within {t : Term} (within : t.Within deep N) (looks : p = .copy ∨ p = .move → deep) :
    s.Tests env False waits (.holds e p t) ∧ s.Tests env False waits (.refuted e p t) :=
  tests_term (fun i asked => (tries (.infer i) asked).1) p t within.1 fun depends =>
    ⟨looks depends, tests_leases tries within (looks depends)⟩

variable (closed : s.Closed deep N) (plain : s.DeclaresPlain) {place : Place}
  (roots : ∀ x ∈ place.occurrences, ∀ t, s.variableTys.lookup x = some t → (Term.ty t).Within deep N)
include closed plain roots

theorem meets_typeOf :
    (Rules.placeTy e place).Settles (s.grounded env False waits) owing
      (fun r _ => ∀ t, r = .ok t → (Term.ty t).Within deep N) w := by
  induction place generalizing w with
  | var v =>
    change (Prog.perform (Action.variableTy v)).Settles _ _ _ _
    refine .read (fun s => by rw [Action.exec_variableTy]) fun w' leads _ _ t known => ?_
    rw [Action.exec_variableTy, leads.sound.2.1] at known
    refine roots v List.mem_cons_self t ?_
    cases recorded : s.variableTys.lookup v <;> rw [recorded] at known <;> cases known
    rfl
  | field base f ih =>
    refine .bind (ih roots).awaited (fun owner v _ found => ?_) fun _ _ _ _ _ wrong => by cases wrong
    have within := found owner rfl
    have sure : s.Tests env False waits (.fieldTy e owner f) := by
      cases head : owner.head with
      | infer i => exact (tries (.infer i) (Ty.asks_head within.1 head)).2 e owner f head
      | _ => exact sure_field fun i same => by cases head.symm.trans same
    exact .relay fun v leads => ⟨sure v leads.sound, nofun, fun r _ _ post => post.2 plain deep N closed within⟩
  | index | infer | error => exact fun _ _ _ wrong => by cases wrong

theorem tests_rooted (looks : deep) : s.TestsPlaces env False waits [place] := by
  -- A place whose type is known and bare is judged; of any other one it is only asked that the test ends.
  by_cases bare : s.BarePlace place
  · exact bare.tests
  refine List.forall_mem_singleton.mpr fun e p depends => ?_
  have next {t : Ty} (within : (Term.ty t).Within deep N) := tests_ty (e := e) (fun i asked => (tries (.infer i) asked).1) p t
    within.1 fun _ => ⟨looks, tests_leases tries within looks⟩
  refine ⟨sure_of_rule fun w _ => ?_, sure_of_rule fun w _ => ?_⟩
  · refine .bind (meets_typeOf tries closed plain roots).awaited (fun t _ _ within => ?_) fun _ _ _ _ known => (bare known.2).elim
    exact meets_relay (next (within t rfl)).1 fun known => (bare known.2).elim
  · refine .bind (meets_typeOf tries closed plain roots).awaited (fun t _ _ within => ?_) fun _ _ _ _ known => (bare known.2).elim
    exact meets_relay ((next (within t rfl)).2 depends) fun known => (bare known.2).elim

end Nodes

theorem tries_infer (may : waits) (tries : ∀ n, s.Consults deep n (.infer i) → s.Tries env deep waits n) :
    s.Tries env deep waits (.infer i) := by
  have bounds {b : Bound} (bound : s.lower? i = some b) : b.term.Within deep fun n => s.Consults deep n (.infer i) :=
    Term.within_of_names fun _ named => ⟨b.term, by rw [term?, bound]; rfl, named⟩
  refine ⟨fun e p looks => ⟨sure_of_rule fun w _ => ?_, fun _ w => ?_⟩, fun e owner f head => ?_⟩
  · refine Prog.Meets.mono (Q := fun _ _ => True) ?_ fun _ _ _ _ known => known.elim
    change (Rules.inferHolds e i p).Settles _ _ _ w
    unfold Rules.inferHolds
    refine .bind (.ask fun v leads => ⟨tests_evidence may v leads.sound, nofun, fun r _ _ post => post⟩)
      (fun known v _ bounded => ?_) fun _ _ _ _ => trivial
    split
    · exact fun _ _ => trivial
    · have sure := tests_within (e := e) tries (bounds (bounded _ rfl)) looks
      exact .relay fun v leads => ⟨sure.1 v leads.sound, nofun, fun _ _ _ _ => trivial⟩
    · exact fun _ _ => trivial
  · unfold Rules.inferRefuted
    refine .inferVar_bind (fun w' v leads found => ?_) fun _ _ => trivial
    have known := lower?_of_leads leads found
    split
    · exact fun _ _ => trivial
    · split
      · exact fun _ _ => trivial
      · split
        · rename_i b bound
          have sure := tests_within (e := e) tries (bounds (known.trans bound)) looks
          exact .relay fun v leads => ⟨sure.2 v leads.sound, nofun, fun _ _ _ _ => trivial⟩
        · exact fun _ _ => trivial
  · refine tests_fieldTy id fun j same => ?_
    cases head.symm.trans same
    refine ⟨may, fun u o bound => ?_⟩
    cases next : u.head with
    | infer j => exact (tries (.infer j) (Ty.asks_head (bounds bound).1 next)).2 e u f next
    | _ => exact sure_field fun k same => by cases next.symm.trans same

theorem tries_of_acc (plain : deep → s.DeclaresPlain) {n : Node} (acc : Acc (s.Consults deep) n)
    (quiet : ∀ i, ReflTransGen (s.Consults deep) (.infer i) n → waits) :
    ∀ m, ReflTransGen (s.Consults deep) m n → s.Tries env deep waits m := by
  induction acc with
  | intro n _ ih =>
    have below (m : Node) (further : TransGen (s.Consults deep) m n) : s.Tries env deep waits m := by
      obtain ⟨c, before, last⟩ := TransGen.tail'_iff.mp further
      exact ih c last (fun i reaches => quiet i (reaches.tail last)) m before
    intro m reaches
    rcases Relation.reflTransGen_iff_eq_or_transGen.mp reaches with rfl | further
    · cases n with
      | infer i => exact tries_infer (quiet i .refl) fun c consults => below c (.single consults)
      | var x =>
        intro looks place root
        refine tests_rooted below (closed_transGen (.var x)) (plain looks) (fun y other t recorded => ?_) looks
        obtain rfl : y = x := Place.eq_root root other
        exact Term.within_of_names fun c named => .single ⟨.ty t, by rw [term?, recorded]; rfl, named⟩
    · exact below m further

theorem coherent_start {g : Goal .truth} (sure : s.Tests env False waits g) : ∃ slots,
    Stage.Coherent (Rules.answer.Settles (s.grounded env False waits)) (Goal.aims (s.grounded env False waits) g ⟨s, []⟩)
      slots .idle ⟨g.alone s, []⟩ :=
  ⟨_, .start (Stage.coherent_idle _ ground_start)
    (.ask fun w leads => ⟨sure w leads.sound, fun _ => trivial, fun _ _ _ post => ⟨w, leads, post⟩⟩)⟩

/-- The recorded type of `x` leases from a place of `y`. -/
def Lets (s : Session) (y x : Variable) : Prop :=
  ∃ t, s.variableTys.lookup x = some t ∧ ∃ place ∈ t.leases, y ∈ place.occurrences

section Recorded

variable {x : Variable}
  (typed : ∀ y, ReflTransGen s.Lets y x → ∀ u, s.variableTys.lookup y = some u → u.infers = [])
include typed

theorem lets_of_consults {m : Node} (consults : s.Consults True m (.var x)) : ∃ y, m = .var y ∧ s.Lets y x := by
  obtain ⟨_, known, named⟩ := consults
  obtain ⟨t, recorded, rfl⟩ := Option.map_eq_some_iff.mp known
  cases m with
  | infer i =>
    have inside : i ∈ t.infers := named
    rw [typed x .refl t recorded] at inside
    cases inside
  | var y => exact ⟨y, rfl, t, recorded, named.2⟩

theorem lets_of_reaches {m : Node} (reaches : ReflTransGen (s.Consults True) m (.var x)) :
    ∃ y, m = .var y ∧ ReflTransGen s.Lets y x := by
  induction reaches using ReflTransGen.head_induction_on with
  | refl => exact ⟨x, rfl, .refl⟩
  | head consults _ ih =>
    obtain ⟨y, rfl, before⟩ := ih
    obtain ⟨z, rfl, lets⟩ := lets_of_consults (fun z more => typed z (more.trans before)) consults
    exact ⟨z, rfl, .head lets before⟩

theorem acc_of_lets (acc : Acc s.Lets x) : Acc (s.Consults True) (.var x) := by
  induction acc with
  | intro x _ ih =>
    refine .intro _ fun m consults => ?_
    obtain ⟨y, rfl, lets⟩ := lets_of_consults typed consults
    exact ih y lets fun z before => typed z (before.tail lets)

end Recorded

/-- Tests of terms without inference variables end in every order of events, with an answer or a failure, where
no variable is leased from itself through the types of variables. -/
theorem tests_end {t : Term} (plain : s.DeclaresPlain) (founded : WellFounded s.Lets) (free : t.infers = [])
    (typed : ∀ place ∈ t.leases, ∀ x ∈ place.occurrences, ∀ y, ReflTransGen s.Lets y x →
      ∀ u, s.variableTys.lookup y = some u → u.infers = []) (env : Env) (p : Predicate) :
    ∀ g ∈ [Goal.holds env p t, .refuted env p t],
      Stage.Ends Rules.answer ⟨({ session := s } : Machine Bool).start 0 (.ask g), []⟩ ∧
      ∃ r last, g.Yields s r last := by
  have tries (n : Node) (named : t.Names True n) : s.Tries env True False n := by
    cases n with
    | infer i =>
      have inside : i ∈ t.infers := named
      rw [free] at inside
      cases inside
    | var x =>
      obtain ⟨_, place, leased, root⟩ := named
      have recorded := typed place leased x root
      refine tries_of_acc (fun _ => plain) (acc_of_lets recorded (founded.apply x)) (fun i reaches => ?_) _ .refl
      obtain ⟨_, wrong, _⟩ := lets_of_reaches recorded reaches
      cases wrong
  have tests := tests_within (e := env) (p := p) tries (Term.within_of_names fun _ => id) fun _ => trivial
  have ends {g : Goal .truth} (sure : s.Sure env False g) :
      Stage.Ends Rules.answer ⟨({ session := s } : Machine Bool).start 0 (.ask g), []⟩ ∧ ∃ r last, g.Yields s r last := by
    obtain ⟨r, last, _, _, yields, _⟩ := Goal.yields_of_settles id ground_start fun w leads => sure w leads.sound
    obtain ⟨slots, coherent⟩ := coherent_start sure
    exact ⟨coherent.ends id, r, last, yields⟩
  rintro g (_ | ⟨_, _ | ⟨_, ⟨⟩⟩⟩)
  · exact ends tests.1
  · exact ends tests.2

section Boxed

def item : Variable := ⟨0, .type, some "T", default⟩
def holder : Variable := ⟨1, .place, some "holder", default⟩
def lender : Variable := ⟨2, .place, some "lender", default⟩
def boxDecl : Aggregate := ⟨0, "Box", .structDecl, [item], default⟩
def held : Field := ⟨0, "content", boxDecl, default⟩

def lentNumber : Ty := (Ty.primitive .u32).leasedFrom (.var lender)

/-- A box of a number that is leased from another variable. -/
def boxed : Session where
  config := {}
  program := ⟨[], [(held, .var item)]⟩
  variableTys := [(holder, .named (.aggregate boxDecl) [.ty lentNumber]), (lender, .primitive .u32)]
  nextSymbol := 3
  nextReport := 0

theorem recorded_boxed {x : Variable} {t : Ty} (recorded : boxed.variableTys.lookup x = some t) :
    x = holder ∧ t = .named (.aggregate boxDecl) [.ty lentNumber] ∨ x = lender ∧ t = .primitive .u32 := by
  simp only [boxed, List.lookup_cons, List.lookup_nil] at recorded
  split at recorded
  · cases recorded
    exact .inl ⟨beq_iff_eq.mp ‹_›, rfl⟩
  · split at recorded
    · cases recorded
      exact .inr ⟨beq_iff_eq.mp ‹_›, rfl⟩
    · cases recorded

theorem lets_boxed {y x : Variable} (lets : boxed.Lets y x) : y = lender ∧ x = holder := by
  obtain ⟨t, recorded, place, leased, root⟩ := lets
  obtain ⟨rfl, rfl⟩ | ⟨rfl, rfl⟩ := recorded_boxed recorded
  · cases List.mem_singleton.mp leased
    exact ⟨List.mem_singleton.mp root, rfl⟩
  · cases leased

/-- Whether a lease of the content of the box is copied: the test goes on with the content and then with the
lender. -/
theorem tests_end_boxed : WellFounded boxed.Lets ∧ ∃ r last,
    (Goal.holds (.root []) .copy (.perm (.leased [.field (.var holder) held]))).Yields boxed r last := by
  have founded : WellFounded boxed.Lets := ⟨fun x => .intro x fun y lets => (lets_boxed lets).1 ▸
    .intro lender fun z wrong => nomatch (lets_boxed wrong).2⟩
  have plain : boxed.DeclaresPlain := by
    intro f t declared
    obtain ⟨entry, found, rfl⟩ := Option.map_eq_some_iff.mp declared
    cases List.mem_singleton.mp (List.mem_of_find?_eq_some found)
    exact ⟨rfl, rfl⟩
  refine ⟨founded, (tests_end plain founded rfl (fun place _ x _ y _ t recorded => ?_) _ _ _ List.mem_cons_self).2⟩
  obtain ⟨_, rfl⟩ | ⟨_, rfl⟩ := recorded_boxed recorded <;> rfl

end Boxed

end Session

end Ownership
