import Ownership.Proofs.GroundRules

namespace Ownership

open Relation (TransGen)

namespace Session

variable {s : Session} {env : Env} {arity : TyName → List Kind} {places : List Place}

section Answers

variable (types : s.TypesPlaces arity places)
include types

variable {t u : Ty} {o : Obligation} (lower : Term.Ground arity places (.ty t))
  (upper : Term.Ground arity places (.ty u))
include lower upper

theorem subTys_yields {quiet : Prop} (right : quiet → s.Below env (.ty t) (.ty u)) :
    ∃ r last, (Goal.subTys env t u o).Yields s r last ∧ (quiet → last.diagnostics = s.diagnostics) ∧
      ((r = .ok () ∧ s.Below env (.ty t) (.ty u)) ∨
        ¬ quiet ∧ (∃ report, r = .error (.reported report)) ∧ s.Failed last) := by
  have sure : s.Sure env quiet (.subTys env t u o) := sure_tys types rfl t lower upper right
  obtain ⟨r, last, answers, w, yields, _, post, leads⟩ :=
    Goal.yields_of_settles id ground_start fun w leads => sure w leads.sound
  exact ⟨r, last, yields, leads.sound.2.2.1, post⟩

theorem yields_of_below (below : s.Below env (.ty t) (.ty u)) :
    ∃ last, (Goal.subTys env t u o).Yields s (.ok ()) last ∧ last.diagnostics = s.diagnostics := by
  obtain ⟨r, last, yields, calm, ⟨rfl, _⟩ | ⟨loud, _⟩⟩ := subTys_yields types lower upper fun _ => below
  · exact ⟨last, yields, calm below⟩
  · exact (loud below).elim

theorem yields_of_not_below (apart : ¬ s.Below env (.ty t) (.ty u)) :
    ∃ report last, (Goal.subTys env t u o).Yields s (.error (.reported report)) last ∧ s.Failed last := by
  obtain ⟨r, last, yields, _, ⟨_, below⟩ | ⟨_, ⟨report, rfl⟩, failed⟩⟩ :=
    subTys_yields types lower upper fun impossible : False => impossible.elim
  · exact (apart below).elim
  · exact ⟨report, last, yields, failed⟩

end Answers

def Subtype (s : Session) (env : Env) (o : Obligation) (t u : Ty) : Prop :=
  ∃ last, (Goal.subTys env t u o).Yields s (.ok ()) last

theorem subtype_iff (types : s.TypesPlaces arity places) {t u : Ty} {o : Obligation}
    (lower : Term.Ground arity places (.ty t)) (upper : Term.Ground arity places (.ty u)) :
    s.Subtype env o t u ↔ s.Below env (.ty t) (.ty u) := by
  constructor
  · rintro ⟨last, yields⟩
    by_contra apart
    obtain ⟨report, last', yields', _⟩ := yields_of_not_below types lower upper apart
    cases (yields.unique yields').1
  · intro below
    obtain ⟨last, yields, _⟩ := yields_of_below types lower upper below
    exact ⟨last, yields⟩

/-- On ground types, subtyping is reflexive and transitive, `!` is below everything, and a copy type is
the same under every permission. What is not below another type is refused with a diagnostic, and what
is leaves none. -/
theorem subtype_preorder (types : s.TypesPlaces arity places) (env : Env) (o : Obligation) :
    (∀ t, Term.Ground arity places (.ty t) → s.Subtype env o t t) ∧
    (∀ t u v, Term.Ground arity places (.ty t) → Term.Ground arity places (.ty u) →
      Term.Ground arity places (.ty v) → s.Subtype env o t u → s.Subtype env o u v →
        s.Subtype env o t v) ∧
    (∀ t u, Term.Ground arity places (.ty t) → Term.Ground arity places (.ty u) → t.head = .never →
      s.Subtype env o t u) ∧
    (∀ p t last, Term.Ground arity places (.ty (.perm p t)) →
      (Goal.holds env .copy (.ty (Ty.perm p t).head.toTy)).Yields s (.ok true) last →
        ∀ q, Term.Ground arity places (.perm q) →
          s.Subtype env o (.perm q t.head.toTy) t.head.toTy ∧
            s.Subtype env o t.head.toTy (.perm q t.head.toTy)) ∧
    ∀ t u, Term.Ground arity places (.ty t) → Term.Ground arity places (.ty u) →
      (s.Subtype env o t u →
        ∀ r last, (Goal.subTys env t u o).Yields s r last → last.diagnostics = s.diagnostics) ∧
      (¬ s.Subtype env o t u →
        ∃ report last, (Goal.subTys env t u o).Yields s (.error (.reported report)) last ∧
          s.diagnostics.length < last.diagnostics.length) := by
  refine ⟨fun t ground => ?_, fun t u v first second third lower upper => ?_,
    fun t u lower upper never => ?_, fun p t last ground copy q definite => ?_,
    fun t u lower upper => ⟨fun related r last yields => ?_, fun apart => ?_⟩⟩
  · exact (subtype_iff types ground ground).mpr (below_self t ground.1)
  · rw [subtype_iff types first second] at lower
    rw [subtype_iff types second third] at upper
    exact (subtype_iff types first third).mpr (lower.trans upper)
  · exact (subtype_iff types lower upper).mpr (.never never)
  · have head : Term.Ground arity places (.ty t.head.toTy) :=
      ⟨ground.1.2.toTy, fun _ h => ground.2 (List.mem_append_right _ (t.leases_head h))⟩
    have applied : Term.Ground arity places (.ty (.perm q t.head.toTy)) :=
      ⟨⟨definite.1, head.1⟩, List.append_subset.mpr ⟨definite.2, head.2⟩⟩
    have proves : s.Proves env .copy (.ty t.head.toTy.head.toTy) := by
      rw [Head.head_toTy]
      exact (answers_true_iff (answers_holds env (t := .ty t.head.toTy) head.1.bare types.bare head.2)).mp ⟨last, copy⟩
    rw [subtype_iff types applied head, subtype_iff types head applied]
    exact ⟨below_of_copy head.1 rfl rfl proves, below_of_copy head.1 rfl rfl proves⟩
  · rw [subtype_iff types lower upper] at related
    obtain ⟨last', yields', calm⟩ := yields_of_below types lower upper related
    rw [(yields.unique yields').2, calm]
  · rw [subtype_iff types lower upper] at apart
    exact yields_of_not_below types lower upper apart

section Leasing

def point : Ty := .aggregate ⟨0, "Point", .classDecl, [], default⟩ []

def owner : Variable := ⟨1, .place, some "x", default⟩

def borrower : Variable := ⟨2, .place, some "y", default⟩

/-- `x` owns a point, and `y` has leased it. -/
def leasing : Session where
  config := {}
  program := .empty
  variableTys := [(owner, point), (borrower, point.leasedFrom (.var owner))]
  nextSymbol := 3
  nextReport := 0

theorem placeTy?_of_empty {s : Session} (empty : s.program = .empty) :
    {p : Place} → {t : Ty} → s.placeTy? p = some t → ∃ v, p = .var v ∧ (v, t) ∈ s.variableTys
  | .var v, t, typed => by
    obtain ⟨_, _, split, _⟩ := List.lookup_eq_some_iff.mp typed
    exact ⟨v, rfl, by simp [split]⟩
  | .field base f, t, typed => by
    obtain ⟨_, _, typed⟩ := Option.bind_eq_some_iff.mp typed
    obtain ⟨_, _, _, _, declared, _⟩ := fieldTy?_eq_some_iff.mp typed
    rw [empty] at declared
    cases declared

theorem placeTy?_leasing {p : Place} {t : Ty} (typed : leasing.placeTy? p = some t) :
    p = .var owner ∧ t = point ∨ p = .var borrower ∧ t = point.leasedFrom (.var owner) := by
  obtain ⟨v, rfl, listed⟩ := placeTy?_of_empty rfl typed
  rcases List.mem_cons.mp listed with same | listed
  · cases same
    exact .inl ⟨rfl, rfl⟩
  · cases List.mem_singleton.mp listed
    exact .inr ⟨rfl, rfl⟩

theorem lends_leasing {q p : Place} (lends : leasing.Lends q p) : q = .var owner ∧ p = .var borrower := by
  obtain ⟨t, typed, member⟩ := lends
  rcases placeTy?_leasing typed with ⟨_, rfl⟩ | ⟨rfl, rfl⟩
  · cases member
  · exact ⟨List.mem_singleton.mp member, rfl⟩

theorem leasing_typesPlaces : leasing.TypesPlaces (fun _ => []) [.var owner, .var borrower] where
  typed := by
    intro p listed
    rcases List.mem_cons.mp listed with rfl | listed
    · exact ⟨point, rfl, trivial, List.nil_subset _⟩
    · rw [List.mem_singleton.mp listed]
      exact ⟨point.leasedFrom (.var owner), rfl, ⟨trivial, trivial⟩,
        List.cons_subset.mpr ⟨List.mem_cons_self, List.nil_subset _⟩⟩
  acyclic := by
    intro p _ cycle
    obtain ⟨_, first, _⟩ := TransGen.head'_iff.mp cycle
    obtain ⟨_, _, last⟩ := TransGen.tail'_iff.mp cycle
    exact nomatch (lends_leasing first).1.symm.trans (lends_leasing last).2

def pointAsNumber : Obligation := ⟨.subtype default (.ty point) (.ty (.primitive .u32)), []⟩

theorem subtype_preorder_leasing :
    leasing.TypesPlaces (fun _ => []) [.var owner, .var borrower] ∧
      leasing.Subtype (.root []) pointAsNumber ((Ty.primitive .u32).leasedFrom (.var borrower))
        (.primitive .u32) ∧
      ∃ report last, (Goal.subTys (.root []) point (.primitive .u32) pointAsNumber).Yields leasing
        (.error (.reported report)) last ∧ 0 < last.diagnostics.length := by
  have within : [Place.var borrower] ⊆ [.var owner, .var borrower] := List.subset_cons_self _ _
  have plain {name : TyName} : Term.Ground (fun _ => []) [.var owner, .var borrower] (.ty (.named name [])) :=
    ⟨trivial, List.nil_subset _⟩
  obtain ⟨_, _, _, copies, decides⟩ := subtype_preorder leasing_typesPlaces (.root []) pointAsNumber
  refine ⟨leasing_typesPlaces, ?_, (decides point (.primitive .u32) plain plain).2 fun related => ?_⟩
  · exact (copies (.leased [.var borrower]) (.primitive .u32) leasing ⟨⟨trivial, trivial⟩, within⟩
      ⟨20, _, rfl, rfl, rfl, rfl⟩ (.leased [.var borrower]) ⟨trivial, within⟩).1
  · rcases below_ty.mp ((subtype_iff leasing_typesPlaces plain plain).mp related) with never | ⟨_, same, _⟩
    · cases never
    · cases same

end Leasing

end Session

end Ownership
