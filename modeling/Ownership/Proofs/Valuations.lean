import Mathlib.Data.List.Forall2
import Ownership.Signature

namespace Ownership

def Place.isKinded : Place → Bool
  | .var v => v.kind = .place
  | .field base _ => base.isKinded
  | .index base => base.isKinded
  | .infer _ | .error _ => true

def Perm.isKinded : Perm → Bool
  | .shared places => places.all Place.isKinded
  | .leased places => places.all Place.isKinded
  | .apply left right => left.isKinded && right.isKinded
  | .var v => v.kind = .perm
  | .my | .our | .infer _ | .error _ => true

mutual
def Ty.isKinded : Ty → Bool
  | .perm p t => p.isKinded && t.isKinded
  | .named _ args => Term.allKinded args
  | .var v => v.kind = .type
  | .infer _ | .never | .error _ => true

def Term.isKinded : Term → Bool
  | .ty t => t.isKinded
  | .perm p => p.isKinded
  | .place p => p.isKinded
  | .error _ => true

def Term.allKinded : List Term → Bool
  | [] => true
  | t :: ts => t.isKinded && Term.allKinded ts
end

/-- Terms of every sort in which variables stand where their kind belongs. -/
inductive Term.Kinded : Term → Prop
  | var (v : Variable) : Kinded (.ofVariable v)
  | field {p : Place} (f : Field) (base : Kinded (.place p)) : Kinded (.place (.field p f))
  | index {p : Place} (base : Kinded (.place p)) : Kinded (.place (.index p))
  | shared {ps : List Place} (all : ∀ p ∈ ps, Kinded (.place p)) : Kinded (.perm (.shared ps))
  | leased {ps : List Place} (all : ∀ p ∈ ps, Kinded (.place p)) : Kinded (.perm (.leased ps))
  | apply {l r : Perm} (left : Kinded (.perm l)) (right : Kinded (.perm r)) : Kinded (.perm (.apply l r))
  | applied {p : Perm} {t : Ty} (perm : Kinded (.perm p)) (ty : Kinded (.ty t)) : Kinded (.ty (.perm p t))
  | named (name : TyName) {ts : List Term} (all : ∀ t ∈ ts, Kinded t) : Kinded (.ty (.named name ts))
  | my : Kinded (.perm .my)
  | our : Kinded (.perm .our)
  | never : Kinded (.ty .never)
  | placeInfer (i : InferIndex) : Kinded (.place (.infer i))
  | permInfer (i : InferIndex) : Kinded (.perm (.infer i))
  | tyInfer (i : InferIndex) : Kinded (.ty (.infer i))
  | placeError (r : Report) : Kinded (.place (.error r))
  | permError (r : Report) : Kinded (.perm (.error r))
  | tyError (r : Report) : Kinded (.ty (.error r))
  | error (r : Report) : Kinded (.error r)

section Kinds

theorem Term.kinded_var {v : Variable} {t : Term} (same : Term.ofVariable v = t) : t.Kinded := same ▸ .var v

theorem Place.kinded {p : Place} (kinded : p.isKinded) : (Term.place p).Kinded := by
  induction p with
  | var v => exact Term.kinded_var (by rw [Term.ofVariable, of_decide_eq_true kinded])
  | field base f ih => exact .field f (ih kinded)
  | index base ih => exact .index (ih kinded)
  | infer i => exact .placeInfer i
  | error r => exact .placeError r

theorem Perm.kinded {p : Perm} (kinded : p.isKinded) : (Term.perm p).Kinded := by
  induction p with
  | my => exact .my
  | our => exact .our
  | shared ps => exact .shared fun p member => Place.kinded (List.all_eq_true.1 kinded p member)
  | leased ps => exact .leased fun p member => Place.kinded (List.all_eq_true.1 kinded p member)
  | apply left right ihl ihr =>
    obtain ⟨first, second⟩ := Bool.and_eq_true_iff.1 kinded
    exact .apply (ihl first) (ihr second)
  | infer i => exact .permInfer i
  | var v => exact Term.kinded_var (by rw [Term.ofVariable, of_decide_eq_true kinded])
  | error r => exact .permError r

mutual
theorem Ty.kinded : (t : Ty) → t.isKinded → (Term.ty t).Kinded
  | .perm p t, kinded => by
    obtain ⟨first, second⟩ := Bool.and_eq_true_iff.1 kinded
    exact .applied (Perm.kinded first) (Ty.kinded t second)
  | .named name ts, kinded => .named name (Term.kinded_all ts kinded)
  | .infer i, _ => .tyInfer i
  | .var v, kinded => Term.kinded_var (by rw [Term.ofVariable, of_decide_eq_true kinded])
  | .never, _ => .never
  | .error r, _ => .tyError r

theorem Term.kinded : (t : Term) → t.isKinded → t.Kinded
  | .ty t, kinded => Ty.kinded t kinded
  | .perm _, kinded => Perm.kinded kinded
  | .place _, kinded => Place.kinded kinded
  | .error r, _ => .error r

theorem Term.kinded_all : (ts : List Term) → Term.allKinded ts → ∀ t ∈ ts, t.Kinded
  | [], _ => List.forall_mem_nil _
  | t :: ts, kinded => by
    obtain ⟨first, rest⟩ := Bool.and_eq_true_iff.1 kinded
    exact List.forall_mem_cons.mpr ⟨Term.kinded t first, Term.kinded_all ts rest⟩
end

end Kinds

/-- What stands for each variable: a place, a permission or a type, as the node around it asks. -/
structure Valuation where
  place : Variable → Place
  perm : Variable → Perm
  ty : Variable → Ty

def Place.act (f : Valuation) : Place → Place
  | .var v => f.place v
  | .field base g => .field (base.act f) g
  | .index base => .index (base.act f)
  | .infer i => .infer i
  | .error r => .error r

def Perm.act (f : Valuation) : Perm → Perm
  | .my => .my
  | .our => .our
  | .shared places => .shared (places.map (Place.act f))
  | .leased places => .leased (places.map (Place.act f))
  | .apply left right => .apply (left.act f) (right.act f)
  | .infer i => .infer i
  | .var v => f.perm v
  | .error r => .error r

mutual
def Ty.act (f : Valuation) : Ty → Ty
  | .perm p t => .perm (p.act f) (t.act f)
  | .named name args => .named name (Term.actAll f args)
  | .infer i => .infer i
  | .var v => f.ty v
  | .never => .never
  | .error r => .error r

def Term.act (f : Valuation) : Term → Term
  | .ty t => .ty (t.act f)
  | .perm p => .perm (p.act f)
  | .place p => .place (p.act f)
  | .error r => .error r

def Term.actAll (f : Valuation) : List Term → List Term
  | [] => []
  | t :: ts => t.act f :: Term.actAll f ts
end

namespace Valuation

def term (f : Valuation) (v : Variable) : Term :=
  match v.kind with
  | .type => .ty (f.ty v)
  | .perm => .perm (f.perm v)
  | .place => .place (f.place v)

def identity : Valuation := ⟨.var, .var, .var⟩

def comp (f g : Valuation) : Valuation where
  place v := (f.place v).act g
  perm v := (f.perm v).act g
  ty v := (f.ty v).act g

variable {f g : Valuation} {v : Variable}

theorem term_comp : (f.comp g).term v = (f.term v).act g := by
  unfold Valuation.term
  split <;> rfl

theorem term_identity : identity.term v = .ofVariable v := by
  cases kind : v.kind <;> simp only [Valuation.term, Term.ofVariable, identity, kind]

theorem act_ofVariable (f : Valuation) (v : Variable) : (Term.ofVariable v).act f = f.term v := by
  cases kind : v.kind <;>
    simp only [Term.ofVariable, Valuation.term, kind, Term.act, Ty.act, Perm.act, Place.act]

end Valuation

theorem Term.actAll_eq_map (f : Valuation) (ts : List Term) : Term.actAll f ts = ts.map (Term.act f) := by
  induction ts with
  | nil => rfl
  | cons t ts ih => simp only [Term.actAll, List.map_cons, ih]

theorem Term.occurrencesAll_eq (ts : List Term) : Term.occurrencesAll ts = ts.flatMap Term.occurrences := by
  induction ts with
  | nil => rfl
  | cons t ts ih => simp only [Term.occurrencesAll, List.flatMap_cons, ih]

theorem Term.allKinded_eq (ts : List Term) : Term.allKinded ts = ts.all Term.isKinded := by
  induction ts with
  | nil => rfl
  | cons t ts ih => simp only [Term.allKinded, List.all_cons, ih]

theorem Term.isKinded_ofVariable (v : Variable) : (Term.ofVariable v).isKinded := by
  cases kind : v.kind <;> simp [ofVariable, kind, isKinded, Ty.isKinded, Perm.isKinded, Place.isKinded]

theorem Term.occurrences_ofVariable (v : Variable) : (Term.ofVariable v).occurrences = [v] := by
  cases kind : v.kind <;>
    simp [ofVariable, kind, occurrences, Ty.occurrences, Perm.occurrences, Place.occurrences]

namespace Term.Kinded

variable {f g : Valuation} {t : Term} (kinded : t.Kinded)
include kinded

theorem act_act : (t.act f).act g = t.act (f.comp g) := by
  induction kinded with
  | var v => rw [Valuation.act_ofVariable, Valuation.act_ofVariable, Valuation.term_comp]
  | shared all ih | leased all ih => simpa [Term.act, Perm.act] using ih
  | named name all ih => simpa [Term.act, Ty.act, actAll_eq_map] using ih
  | _ => simp_all [Term.act, Ty.act, Perm.act, Place.act]

theorem act_congr (same : ∀ v ∈ t.occurrences, f.term v = g.term v) : t.act f = t.act g := by
  induction kinded with
  | var v =>
    rw [Valuation.act_ofVariable, Valuation.act_ofVariable]
    exact same v (by rw [occurrences_ofVariable]; exact List.mem_singleton_self v)
  | @shared ps all ih | @leased ps all ih =>
    have each : ∀ p ∈ ps, p.act f = p.act g := fun p member =>
      Term.place.inj (ih p member fun v occurs => same v (List.mem_flatMap.2 ⟨p, member, occurs⟩))
    simp only [Term.act, Perm.act, List.map_congr_left each]
  | @named name ts all ih =>
    rw [Term.occurrences, Ty.occurrences, occurrencesAll_eq] at same
    have each : ∀ t ∈ ts, t.act f = t.act g := fun t member =>
      ih t member fun v occurs => same v (List.mem_flatMap.2 ⟨t, member, occurs⟩)
    simp only [Term.act, Ty.act, actAll_eq_map, List.map_congr_left each]
  | _ => simp_all [Term.act, Ty.act, Perm.act, Place.act, Term.occurrences, Ty.occurrences, Perm.occurrences, Place.occurrences]

theorem act_identity : t.act .identity = t := by
  induction kinded with
  | var v => rw [Valuation.act_ofVariable, Valuation.term_identity]
  | shared all ih | leased all ih =>
    simp only [Term.act, Perm.act, List.map_congr_left fun p member => Term.place.inj (ih p member), List.map_id']
  | named name all ih => simp only [Term.act, Ty.act, actAll_eq_map, List.map_congr_left ih, List.map_id']
  | _ => simp_all [Term.act, Ty.act, Perm.act, Place.act]

theorem act_eq_self (fixed : ∀ v ∈ t.occurrences, f.term v = .ofVariable v) : t.act f = t :=
  (kinded.act_congr fun v occurs => (fixed v occurs).trans Valuation.term_identity.symm).trans kinded.act_identity

theorem occurrences_act : (t.act f).occurrences = t.occurrences.flatMap fun v => (f.term v).occurrences := by
  induction kinded with
  | var v => rw [Valuation.act_ofVariable, occurrences_ofVariable, List.flatMap_singleton]
  | shared all ih | leased all ih =>
    simp only [Term.act, Perm.act, Term.occurrences, Perm.occurrences, List.flatMap_map, List.flatMap_assoc]
    exact List.flatMap_congr ih
  | named name all ih =>
    simp only [Term.act, Ty.act, Term.occurrences, Ty.occurrences, actAll_eq_map, occurrencesAll_eq, List.flatMap_map,
      List.flatMap_assoc]
    exact List.flatMap_congr ih
  | _ => simp_all [Term.act, Ty.act, Perm.act, Place.act, Term.occurrences, Ty.occurrences, Perm.occurrences, Place.occurrences]

theorem isKinded_act (values : ∀ v, (f.term v).isKinded) : (t.act f).isKinded := by
  induction kinded with
  | var v => rw [Valuation.act_ofVariable]; exact values v
  | shared all ih | leased all ih => simpa [Term.act, Term.isKinded, Perm.isKinded, Perm.act] using ih
  | named name all ih => simpa [Term.act, Term.isKinded, Ty.isKinded, Ty.act, actAll_eq_map, allKinded_eq] using ih
  | _ => simp_all [Term.act, Ty.act, Perm.act, Place.act, Term.isKinded, Ty.isKinded, Perm.isKinded, Place.isKinded]

end Term.Kinded

namespace Substitution

def Kinded (σ : Substitution) : Prop :=
  ∀ v t, σ.lookup v = some t → t.hasKind v.kind

def valuation (σ : Substitution) : Valuation where
  place v := ((σ.lookup v).bind fun t => t.expectPlace.toOption).getD (.var v)
  perm v := ((σ.lookup v).bind fun t => t.expectPerm.toOption).getD (.var v)
  ty v := ((σ.lookup v).bind fun t => t.expectTy.toOption).getD (.var v)

end Substitution

namespace Term

def as (k : Kind) : Term → Term
  | error r =>
    match k with
    | .type => ty (.error r)
    | .perm => perm (.error r)
    | .place => place (.error r)
  | t => t

variable {k : Kind} {t : Term}

theorem occurrences_as : (t.as k).occurrences = t.occurrences := by
  cases t <;> cases k <;> rfl

theorem isKinded_as : (t.as k).isKinded = t.isKinded := by
  cases t <;> cases k <;> rfl

end Term

section Substituting

variable {σ : Substitution} {v : Variable} {t : Term}

theorem Substitution.Kinded.term_valuation (kinds : σ.Kinded) (v : Variable) :
    σ.valuation.term v = match σ.lookup v with
      | none => .ofVariable v
      | some t => t.as v.kind := by
  cases found : σ.lookup v with
  | none => cases kind : v.kind <;> simp [Valuation.term, valuation, Term.ofVariable, kind, found]
  | some t =>
    have fits := kinds v t found
    cases kind : v.kind <;> cases t <;> simp_all [Valuation.term, valuation, Term.as, Term.hasKind,
      Term.kind?, Term.expectTy, Term.expectPerm, Term.expectPlace, Except.toOption]

variable {r : Replacement (Except Violation)}

theorem Place.replace_eq_ok {p q : Place} : (Term.place p).replace r = .ok (.place q) ↔ p.replace r = .ok q := by
  cases replaced : p.replace r <;> simp [Term.replace, replaced, bind, Except.bind, pure, Except.pure]

theorem Perm.replace_eq_ok {p q : Perm} : (Term.perm p).replace r = .ok (.perm q) ↔ p.replace r = .ok q := by
  cases replaced : p.replace r <;> simp [Term.replace, replaced, bind, Except.bind, pure, Except.pure]

theorem Ty.replace_eq_ok {t u : Ty} : (Term.ty t).replace r = .ok (.ty u) ↔ t.replace r = .ok u := by
  cases replaced : t.replace r <;> simp [Term.replace, replaced, bind, Except.bind, pure, Except.pure]

theorem Place.replaceAll_eq_ok {ps : List Place} {h : Place → Place} (each : ∀ p ∈ ps, p.replace r = .ok (h p)) :
    Place.replaceAll r ps = .ok (ps.map h) := by
  induction ps with
  | nil => rfl
  | cons p ps ih =>
    obtain ⟨first, rest⟩ := List.forall_mem_cons.mp each
    rw [Place.replaceAll, first, ih rest]
    rfl

theorem Term.replaceAll_eq_ok {ts : List Term} {h : Term → Term} (each : ∀ t ∈ ts, t.replace r = .ok (h t)) :
    Term.replaceAll r ts = .ok (ts.map h) := by
  induction ts with
  | nil => rfl
  | cons t ts ih =>
    obtain ⟨first, rest⟩ := List.forall_mem_cons.mp each
    rw [Term.replaceAll, first, ih rest]
    rfl

theorem Term.Kinded.replace_eq_act (kinds : σ.Kinded) (kinded : t.Kinded) :
    t.replace σ.replacement = .ok (t.act σ.valuation) := by
  induction kinded with
  | var v =>
    rw [Valuation.act_ofVariable, kinds.term_valuation]
    have fits := kinds v
    cases kind : v.kind <;> cases found : σ.lookup v with
    | none => simp [Term.ofVariable, kind, Term.replace, Ty.replace, Perm.replace, Place.replace, Substitution.replacement,
        found, bind, Except.bind, pure, Except.pure]
    | some t =>
      have fits := fits t found
      cases t <;> simp_all [Term.ofVariable, Term.replace, Ty.replace, Perm.replace, Place.replace, Term.as, Term.hasKind,
        Term.kind?, Substitution.replacement, Term.expectTy, Term.expectPerm, Term.expectPlace, bind,
        Except.bind, pure, Except.pure]
  | field f base ih | index base ih =>
    have replaced := Place.replace_eq_ok.mp ih
    exact Place.replace_eq_ok.mpr (by rw [Place.replace, replaced]; rfl)
  | shared all ih | leased all ih =>
    have replaced := Place.replaceAll_eq_ok fun p member => Place.replace_eq_ok.mp (ih p member)
    exact Perm.replace_eq_ok.mpr (by rw [Perm.replace, replaced]; rfl)
  | apply left right ihl ihr =>
    exact Perm.replace_eq_ok.mpr (by rw [Perm.replace, Perm.replace_eq_ok.mp ihl, Perm.replace_eq_ok.mp ihr]; rfl)
  | applied perm ty ihp iht =>
    exact Ty.replace_eq_ok.mpr (by rw [Ty.replace, Perm.replace_eq_ok.mp ihp, Ty.replace_eq_ok.mp iht]; rfl)
  | named name all ih =>
    exact Ty.replace_eq_ok.mpr (by rw [Ty.replace, Term.replaceAll_eq_ok ih, ← Term.actAll_eq_map]; rfl)
  | _ => rfl

theorem Ty.replace_eq_act (kinds : σ.Kinded) (t : Ty) (kinded : t.isKinded) :
    t.replace σ.replacement = .ok (t.act σ.valuation) := Ty.replace_eq_ok.mp ((Ty.kinded t kinded).replace_eq_act kinds)

theorem Term.subst_eq_act (kinds : σ.Kinded) {t : Term} (kinded : t.isKinded) : t.subst σ = .ok (t.act σ.valuation) :=
  (Term.kinded t kinded).replace_eq_act kinds

end Substituting

end Ownership
