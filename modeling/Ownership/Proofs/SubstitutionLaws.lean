import Ownership.Proofs.Lexicon

namespace Ownership

theorem Term.infers_ofVariable (v : Variable) : (Term.ofVariable v).infers = [] := by
  cases kind : v.kind <;> simp [ofVariable, kind, infers, Ty.infers, Perm.infers, Place.infers]

theorem Term.allInfers_eq (ts : List Term) : Term.allInfers ts = ts.flatMap Term.infers := by
  induction ts with
  | nil => rfl
  | cons t ts ih => simp only [Term.allInfers, List.flatMap_cons, ih]

theorem List.count_flatMap_add {α β : Type} [DecidableEq β] {xs : List α} {f g h : α → List β} {b : β}
    (each : ∀ x ∈ xs, (f x).count b = (g x).count b + (h x).count b) :
    (xs.flatMap f).count b = (xs.flatMap g).count b + (xs.flatMap h).count b := by
  induction xs with
  | nil => rfl
  | cons x xs ih =>
    obtain ⟨first, rest⟩ := List.forall_mem_cons.mp each
    simp only [List.flatMap_cons, List.count_append, first, ih rest]
    omega

theorem Term.Kinded.count_infers_act {f : Valuation} (i : InferIndex) {t : Term} (kinded : t.Kinded) :
    (t.act f).infers.count i = t.infers.count i + (t.occurrences.flatMap fun v => (f.term v).infers).count i := by
  induction kinded with
  | var v => simp [Valuation.act_ofVariable, occurrences_ofVariable, infers_ofVariable]
  | shared all ih | leased all ih =>
    simp only [Term.act, Perm.act, Term.infers, Perm.infers, Term.occurrences, Perm.occurrences, List.flatMap_map,
      List.flatMap_assoc]
    exact List.count_flatMap_add ih
  | named name all ih =>
    simp only [Term.act, Ty.act, Term.infers, Ty.infers, Term.occurrences, Ty.occurrences, actAll_eq_map, allInfers_eq,
      occurrencesAll_eq, List.flatMap_map, List.flatMap_assoc]
    exact List.count_flatMap_add ih
  | apply left right ihl ihr | applied left right ihl ihr =>
    simp only [Term.act, Ty.act, Perm.act, Term.infers, Ty.infers, Perm.infers, Term.occurrences, Ty.occurrences,
      Perm.occurrences, List.flatMap_append, List.count_append] at ihl ihr ⊢
    omega
  | _ => simp_all [Term.act, Ty.act, Perm.act, Place.act, Term.infers, Ty.infers, Perm.infers, Place.infers, Term.occurrences,
      Ty.occurrences, Perm.occurrences, Place.occurrences]

namespace Term

variable {f : Valuation} {k : Kind} {t : Term}

theorem kind?_act : (t.act f).kind? = t.kind? := by
  cases t <;> simp [act, kind?]

theorem act_as : (t.as k).act f = (t.act f).as k := by
  cases t <;> cases k <;> simp [act, as, Ty.act, Perm.act, Place.act]

theorem infers_as : (t.as k).infers = t.infers := by
  cases t <;> cases k <;> rfl

end Term

namespace Substitution

/-- Variables are replaced by well-kinded terms of their kinds. -/
def WellKinded (σ : Substitution) : Prop := ∀ v t, σ.lookup v = some t → t.hasKind v.kind ∧ t.isKinded

/-- The substitution that does at once what two do in turn. -/
def andThen (σ τ : Substitution) : Substitution :=
  ⟨τ.entries ++ σ.entries.map fun entry => (entry.1, (entry.2.subst τ).toOption.getD entry.2)⟩

def identity (vs : List Variable) : Substitution := ⟨vs.map fun v => (v, .ofVariable v)⟩

variable {σ τ : Substitution} {v : Variable}

theorem WellKinded.kinded (kinds : σ.WellKinded) : σ.Kinded := fun v t found => (kinds v t found).1

theorem WellKinded.isKinded_term (kinds : σ.WellKinded) (v : Variable) : (σ.valuation.term v).isKinded := by
  rw [kinds.kinded.term_valuation]
  cases found : σ.lookup v with
  | none => exact Term.isKinded_ofVariable v
  | some t => exact Term.isKinded_as.trans (kinds v t found).2

theorem lookup_map (f : Variable × Term → Term) (l : List (Variable × Term)) :
    lookup ⟨l.map fun entry => (entry.1, f entry)⟩ v =
      ((l.reverse.find? fun entry => entry.1 = v).map f) := by
  simp [lookup, ← List.map_reverse, List.find?_map, Function.comp_def]

theorem lookup_andThen : (σ.andThen τ).lookup v =
    match σ.lookup v with
      | some t => some ((t.subst τ).toOption.getD t)
      | none => τ.lookup v := by
  rw [andThen, lookup_append, lookup_map]
  unfold lookup
  cases σ.entries.reverse.find? fun entry => entry.1 = v <;> rfl

theorem lookup_identity {vs : List Variable} {t : Term} (found : (identity vs).lookup v = some t) : t = .ofVariable v := by
  obtain ⟨w, _, same⟩ := List.mem_map.mp (mem_of_lookup found)
  cases same
  rfl

theorem WellKinded.identity (vs : List Variable) : (identity vs).WellKinded := by
  intro v t found
  rw [lookup_identity found]
  refine ⟨?_, Term.isKinded_ofVariable v⟩
  cases kind : v.kind <;> simp [Term.ofVariable, kind, Term.hasKind, Term.kind?]

theorem WellKinded.subst_eq (kinds : τ.WellKinded) {t : Term} (kinded : t.isKinded) :
    (t.subst τ).toOption.getD t = t.act τ.valuation := by
  rw [Term.subst_eq_act kinds.kinded kinded]
  rfl

theorem WellKinded.andThen (first : σ.WellKinded) (second : τ.WellKinded) : (σ.andThen τ).WellKinded := by
  intro v t found
  rw [lookup_andThen] at found
  cases looked : σ.lookup v with
  | none =>
    rw [looked] at found
    exact second v t found
  | some a =>
    obtain ⟨kind, kinded⟩ := first v a looked
    rw [looked, Option.some.injEq, second.subst_eq kinded] at found
    subst found
    exact ⟨by rwa [Term.hasKind, Term.kind?_act], (Term.kinded a kinded).isKinded_act second.isKinded_term⟩

theorem WellKinded.term_andThen (first : σ.WellKinded) (second : τ.WellKinded) (v : Variable) :
    (σ.valuation.comp τ.valuation).term v = (σ.andThen τ).valuation.term v := by
  rw [Valuation.term_comp, (first.andThen second).kinded.term_valuation, first.kinded.term_valuation, lookup_andThen]
  cases looked : σ.lookup v with
  | none => exact (Valuation.act_ofVariable ..).trans (second.kinded.term_valuation v)
  | some a =>
    dsimp only
    rw [Term.act_as, second.subst_eq (first v a looked).2]

theorem WellKinded.occurrences_term (kinds : σ.WellKinded) (v : Variable) :
    (σ.valuation.term v).occurrences = (σ.lookup v).elim [v] Term.occurrences := by
  rw [kinds.kinded.term_valuation]
  cases σ.lookup v with
  | none => exact Term.occurrences_ofVariable v
  | some a => exact Term.occurrences_as

theorem WellKinded.infers_term (kinds : σ.WellKinded) (v : Variable) :
    (σ.valuation.term v).infers = (σ.lookup v).elim [] Term.infers := by
  rw [kinds.kinded.term_valuation]
  cases σ.lookup v with
  | none => exact Term.infers_ofVariable v
  | some a => exact Term.infers_as

/-- Substitution acts on terms: it keeps their kinds, and what it puts in is all that changes. -/
theorem subst_acts {t : Term} (kinded : t.isKinded) (first : σ.WellKinded) (second : τ.WellKinded) :
    ∃ t', t.subst σ = .ok t' ∧ t'.kind? = t.kind? ∧
      (t'.subst τ = t.subst (σ.andThen τ) ∧ (∃ u, t'.subst τ = .ok u) ∧ ∀ v, match σ.lookup v with
        | some a => ∃ b, a.subst τ = .ok b ∧ (σ.andThen τ).lookup v = some b
        | none => (σ.andThen τ).lookup v = τ.lookup v) ∧
      (∀ vs, t.subst (identity vs) = .ok t) ∧
      (∀ v, v ∈ t'.freeVariables ↔ v ∈ t.freeVariables ∧ σ.lookup v = none ∨
        ∃ w ∈ t.freeVariables, ∃ a, σ.lookup w = some a ∧ v ∈ a.freeVariables) ∧
      ∀ i, t'.infers.count i = t.infers.count i +
        (t.occurrences.flatMap fun v => (σ.lookup v).elim [] Term.infers).count i := by
  have kinded' := (Term.kinded t kinded).isKinded_act first.isKinded_term
  have acts := Term.subst_eq_act second.kinded kinded'
  refine ⟨t.act σ.valuation, Term.subst_eq_act first.kinded kinded, Term.kind?_act,
    ⟨?_, ⟨_, acts⟩, fun v => ?_⟩, fun vs => ?_, fun v => ?_, fun i => ?_⟩
  · rw [acts, Term.subst_eq_act (first.andThen second).kinded kinded, (Term.kinded t kinded).act_act,
      (Term.kinded t kinded).act_congr fun v _ => first.term_andThen second v]
  · rw [lookup_andThen]
    cases looked : σ.lookup v with
    | none => rfl
    | some a =>
      have known := (first v a looked).2
      exact ⟨_, Term.subst_eq_act second.kinded known, congrArg some (second.subst_eq known)⟩
  · have kinds := WellKinded.identity vs
    rw [Term.subst_eq_act kinds.kinded kinded, (Term.kinded t kinded).act_eq_self fun v _ => ?_]
    rw [kinds.kinded.term_valuation]
    cases looked : (identity vs).lookup v with
    | none => rfl
    | some a =>
      rw [lookup_identity looked]
      cases kind : v.kind <;> simp [Term.ofVariable, kind, Term.as]
  · simp only [Term.mem_freeVariables, (Term.kinded t kinded).occurrences_act, List.mem_flatMap, first.occurrences_term]
    constructor
    · rintro ⟨w, occurs, inside⟩
      cases looked : σ.lookup w with
      | none =>
        rw [looked] at inside
        obtain rfl := List.mem_singleton.mp inside
        exact .inl ⟨occurs, looked⟩
      | some a =>
        rw [looked] at inside
        exact .inr ⟨w, occurs, a, looked, inside⟩
    · rintro (⟨occurs, looked⟩ | ⟨w, occurs, a, looked, inside⟩)
      · exact ⟨v, occurs, by simp [looked]⟩
      · exact ⟨w, occurs, by simpa [looked] using inside⟩
  · simp only [(Term.kinded t kinded).count_infers_act i, first.infers_term]

/-- A type goes in for one variable, and an error takes the form of the permission it stands for. -/
theorem subst_acts_pair :
    let type : Variable := ⟨0, .type, none, default⟩
    let perm : Variable := ⟨1, .perm, none, default⟩
    let t : Term := .ty (.perm (.var perm) (.named (.tuple 2) [.ty (.var type), .ty (.infer 0)]))
    let σ : Substitution := ⟨[(type, .ty (.perm (.var perm) .never)), (perm, .error ⟨0, default, ""⟩)]⟩
    let τ : Substitution := ⟨[(perm, .perm .our)]⟩
    t.isKinded ∧ σ.WellKinded ∧ τ.WellKinded ∧
      ∃ t', t.subst σ = .ok t' ∧ t'.subst τ = t.subst (σ.andThen τ) := by
  intro type perm t σ τ
  have first : σ.WellKinded := fun v a found =>
    (by decide : ∀ entry ∈ σ.entries, entry.2.hasKind entry.1.kind ∧ entry.2.isKinded) _ (mem_of_lookup found)
  have second : τ.WellKinded := fun v a found =>
    (by decide : ∀ entry ∈ τ.entries, entry.2.hasKind entry.1.kind ∧ entry.2.isKinded) _ (mem_of_lookup found)
  have kinded : t.isKinded := by decide
  obtain ⟨t', found, _, composed, _⟩ := subst_acts kinded first second
  exact ⟨kinded, first, second, t', found, composed.1⟩

end Substitution

end Ownership
