import Ownership.Proofs.Traversals

namespace Ownership

namespace Substitution

def termOf (σ : Substitution) (v : Variable) : Term := (σ.lookup v).getD (.ofVariable v)

/-- Types are for type variables, permissions for permission variables, and places stay. -/
def Fits (σ : Substitution) (arity : TyName → List Kind) : Prop :=
  ∀ v t, σ.lookup v = some t → t.Definite arity v.kind

variable {σ : Substitution} {arity : TyName → List Kind} {v : Variable}

theorem Fits.cases (fits : σ.Fits arity) {t : Term} (found : σ.lookup v = some t) :
    (∃ u, t = .ty u ∧ v.kind = .type ∧ u.Definite arity) ∨ ∃ p, t = .perm p ∧ v.kind = .perm ∧ p.Definite :=
  (fits v t found).cases

end Substitution

/-- The second permission is the first one with its variables replaced, up to `my`. -/
def Perm.Instance (σ : Substitution) : Perm → Perm → Prop
  | .apply l r, q => ∃ l' r', l.Instance σ l' ∧ r.Instance σ r' ∧ (q = .apply l' r' ∨ q = l'.compose r')
  | .var v, q => σ.lookup v = some (.perm q) ∨ σ.lookup v = none ∧ q = .var v
  | p, q => q = p

mutual
def Ty.Instance (σ : Substitution) : Ty → Ty → Prop
  | .perm p t, u => ∃ p' t', p.Instance σ p' ∧ t.Instance σ t' ∧ (u = .perm p' t' ∨ u = p'.applyTo t')
  | .named name args, u => ∃ args', u = .named name args' ∧ Term.InstanceAll σ args args'
  | .var v, u => σ.lookup v = some (.ty u) ∨ σ.lookup v = none ∧ u = .var v
  | .infer i, u => u = .infer i
  | .never, u => u = .never
  | .error r, u => u = .error r

def Term.Instance (σ : Substitution) : Term → Term → Prop
  | .ty t, u => ∃ t', u = .ty t' ∧ t.Instance σ t'
  | .perm p, u => ∃ p', u = .perm p' ∧ p.Instance σ p'
  | .place p, u => u = .place p
  | .error r, u => u = .error r

def Term.InstanceAll (σ : Substitution) : List Term → List Term → Prop
  | [], us => us = []
  | t :: ts, us => ∃ u us', us = u :: us' ∧ t.Instance σ u ∧ Term.InstanceAll σ ts us'
end

section Replacing

variable {σ : Substitution} {arity : TyName → List Kind}

theorem Term.instanceAll_of_forall₂ {ts us : List Term} (all : List.Forall₂ (Term.Instance σ) ts us) :
    Term.InstanceAll σ ts us := by
  induction all with
  | nil => rfl
  | cons first _ ih => exact ⟨_, _, rfl, first, ih⟩

theorem Place.error_self (r : Report) : Place.error r = .error r := rfl

theorem Perm.instance_error (r : Report) : (Perm.error r).Instance σ (.error r) := rfl

def Congruence.instances (σ : Substitution) : Congruence where
  place p q := p = q
  perm := Perm.Instance σ
  ty := Ty.Instance σ
  term := Term.Instance σ
  field f same := congrArg (Place.field · f) same
  index same := congrArg Place.index same
  placeError := Place.error_self
  my := rfl
  our := rfl
  shared all := congrArg Perm.shared (congrFun (congrFun List.forall₂_eq_eq_eq _) _ |>.mp all).symm
  leased all := congrArg Perm.leased (congrFun (congrFun List.forall₂_eq_eq_eq _) _ |>.mp all).symm
  apply left right := ⟨_, _, left, right, .inl rfl⟩
  permError := Perm.instance_error
  applied outer inner := ⟨_, _, outer, inner, .inl rfl⟩
  named _ _ _ all := ⟨_, rfl, Term.instanceAll_of_forall₂ all⟩
  never := rfl
  tyError _ := rfl
  ofTy inst := ⟨_, rfl, inst⟩
  ofPerm inst := ⟨_, rfl, inst⟩
  ofPlace same := congrArg Term.place same.symm
  termError _ := rfl

variable (fits : σ.Fits arity)
include fits

theorem Substitution.Fits.sends : σ.Sends .all (.instances σ) where
  shown _ := id
  itself _ _ none := ⟨rfl, .inr ⟨none, rfl⟩, .inr ⟨none, rfl⟩⟩
  place _ _ _ found := by rcases fits.cases found with ⟨_, same, _⟩ | ⟨_, same, _⟩ <;> cases same
  perm _ _ _ found := .inl found
  ty _ _ _ found := .inl found
  error _ _ _ found := by rcases fits.cases found with ⟨_, same, _⟩ | ⟨_, same, _⟩ <;> cases same
  infer _ := ⟨rfl, rfl, rfl⟩

theorem Ty.instance_of_replace (t : Ty) {u : Ty} (replaced : t.replace σ.replacement = .ok u) : t.Instance σ u :=
  Ty.replaced fits.sends t.in_all replaced

theorem Term.instance_of_replace (t : Term) {u : Term} (replaced : t.replace σ.replacement = .ok u) : t.Instance σ u :=
  (t.ends_replace fits.sends.relates t.in_all).of_ok replaced

end Replacing

section Shapes

variable {σ : Substitution}

theorem Perm.compose_my (p : Perm) : p.compose .my = p := by cases p <;> rfl

theorem Perm.compose_cases (p q : Perm) :
    p = .my ∧ p.compose q = q ∨ q = .my ∧ p.compose q = p ∨ p.compose q = .apply p q := by
  unfold Perm.compose
  split
  · exact .inl ⟨rfl, rfl⟩
  · exact .inr (.inl ⟨rfl, rfl⟩)
  · exact .inr (.inr rfl)

theorem Perm.Instance.compose {p p' q q' : Perm} (outer : p.Instance σ p') (inner : q.Instance σ q') :
    (p.compose q).Instance σ (p'.compose q') := by
  rcases p.compose_cases q with ⟨rfl, same⟩ | ⟨rfl, same⟩ | same <;> rw [same]
  · obtain rfl : p' = .my := outer
    exact inner
  · obtain rfl : q' = .my := inner
    exact p'.compose_my.symm ▸ outer
  · exact ⟨p', q', outer, inner, .inr rfl⟩

theorem Ty.red_applyTo (p : Perm) (t : Ty) : (p.applyTo t).red = ⟨t.head, p.compose t.red.perm⟩ := by
  cases p <;> rfl

theorem Ty.red_of_perm {p : Perm} {t u : Ty} (same : u = .perm p t ∨ u = p.applyTo t) :
    u.red = ⟨t.head, p.compose t.red.perm⟩ := by
  rcases same with rfl | rfl
  · rfl
  · exact Ty.red_applyTo p t

theorem Ty.Instance.red {name : TyName} {args : List Term} : {t u : Ty} → t.Instance σ u →
    t.head = .named name args → ∃ args', u.head = .named name args' ∧ Term.InstanceAll σ args args' ∧
      t.red.perm.Instance σ u.red.perm
  | .perm p t, u, ⟨p', t', outer, inner, same⟩, head => by
    obtain ⟨args', head', all, perms⟩ := inner.red head
    have red := Ty.red_of_perm same
    refine ⟨args', (congrArg RedTy.head red).trans head', all, ?_⟩
    rw [red]
    exact outer.compose perms
  | .named _ _, _, ⟨args', rfl, all⟩, rfl => ⟨args', rfl, all, rfl⟩

theorem Term.InstanceAll.forall₂ : {ts us : List Term} → Term.InstanceAll σ ts us →
    List.Forall₂ (Term.Instance σ) ts us
  | [], _, rfl => .nil
  | _ :: _, _, ⟨_, _, rfl, first, rest⟩ => .cons first rest.forall₂

theorem Term.InstanceAll.zip {ts us ts' us' : List Term} (lower : Term.InstanceAll σ ts ts')
    (upper : Term.InstanceAll σ us us') {pair : Term × Term} (member : pair ∈ ts'.zip us') :
    ∃ a b, (a, b) ∈ ts.zip us ∧ a.Instance σ pair.1 ∧ b.Instance σ pair.2 := by
  replace lower := lower.forall₂
  replace upper := upper.forall₂
  induction lower generalizing us us' with
  | nil => cases member
  | cons first _ ih =>
    cases upper with
    | nil => cases member
    | cons first' rest' =>
      rcases List.mem_cons.mp member with rfl | member
      · exact ⟨_, _, List.mem_cons_self, first, first'⟩
      · obtain ⟨a, b, listed, insts⟩ := ih member rest'
        exact ⟨a, b, List.mem_cons_of_mem _ listed, insts⟩

theorem Term.InstanceAll.exists_right {ts us : List Term} (all : Term.InstanceAll σ ts us) {t : Term}
    (member : t ∈ ts) : ∃ u ∈ us, t.Instance σ u := by
  obtain ⟨⟨i, bound⟩, rfl⟩ := List.get_of_mem member
  have bound' : i < us.length := all.forall₂.length_eq ▸ bound
  exact ⟨us.get ⟨i, bound'⟩, List.get_mem _ _, all.forall₂.get bound bound'⟩

theorem Term.InstanceAll.exists_left {ts us : List Term} (all : Term.InstanceAll σ ts us) {u : Term}
    (member : u ∈ us) : ∃ t ∈ ts, t.Instance σ u := by
  obtain ⟨⟨i, bound⟩, rfl⟩ := List.get_of_mem member
  have bound' : i < ts.length := all.forall₂.length_eq ▸ bound
  exact ⟨ts.get ⟨i, bound'⟩, List.get_mem _ _, all.forall₂.get bound' bound⟩

end Shapes

section Ground

variable {σ : Substitution} {arity : TyName → List Kind} {places : List Place}

def Substitution.LeasesFrom (σ : Substitution) (places : List Place) : Prop :=
  ∀ v t, σ.lookup v = some t → t.leases ⊆ places

theorem Perm.Instance.definite (fits : σ.Fits arity) {p q : Perm} (inst : p.Instance σ q)
    (definite : p.Definite) : q.Definite := by
  induction p generalizing q with
  | apply l r left right =>
    obtain ⟨l', r', first, second, rfl | rfl⟩ := inst
    · exact ⟨left first definite.1, right second definite.2⟩
    · exact (left first definite.1).compose (right second definite.2)
  | var v =>
    rcases inst with found | ⟨_, rfl⟩
    · obtain ⟨_, wrong, _⟩ | ⟨_, same, _, definite⟩ := fits.cases found
      · cases wrong
      · cases same
        exact definite
    · trivial
  | infer | error => exact definite.elim
  | _ => cases inst; trivial

theorem Perm.Instance.leases (from_ : σ.LeasesFrom places) {p q : Perm} (inst : p.Instance σ q)
    (within : p.leases ⊆ places) : q.leases ⊆ places := by
  induction p generalizing q with
  | apply l r left right =>
    obtain ⟨here, there⟩ := List.append_subset.mp within
    obtain ⟨l', r', first, second, same⟩ := inst
    have both : l'.leases ++ r'.leases ⊆ places := List.append_subset.mpr ⟨left first here, right second there⟩
    rcases same with rfl | rfl
    · exact both
    · exact List.Subset.trans (l'.leases_compose r') both
  | var v =>
    rcases inst with found | ⟨_, rfl⟩
    · exact from_ v _ found
    · exact List.nil_subset _
  | _ => cases inst; exact within

theorem Ty.Definite.applyTo {p : Perm} {t : Ty} (outer : p.Definite) (inner : t.Definite arity) :
    (p.applyTo t).Definite arity := by
  cases p with
  | my => exact inner
  | _ => exact ⟨outer, inner⟩

theorem Ty.leases_applyTo (p : Perm) (t : Ty) : (p.applyTo t).leases ⊆ p.leases ++ t.leases := by
  cases p with
  | my => exact List.subset_append_right _ _
  | _ => exact List.Subset.refl _

mutual
theorem Ty.Instance.definite (fits : σ.Fits arity) : {t u : Ty} → t.Instance σ u → t.Definite arity →
    u.Definite arity
  | .perm _ _, _, ⟨_, _, outer, inner, .inl rfl⟩, definite =>
    ⟨outer.definite fits definite.1, inner.definite fits definite.2⟩
  | .perm _ _, _, ⟨_, _, outer, inner, .inr rfl⟩, definite =>
    .applyTo (outer.definite fits definite.1) (inner.definite fits definite.2)
  | .named _ _, _, ⟨_, rfl, all⟩, definite => all.definite fits definite
  | .var v, u, inst, _ => by
    rcases inst with found | ⟨_, rfl⟩
    · obtain ⟨_, same, _, definite⟩ | ⟨_, wrong, _⟩ := fits.cases found
      · cases same
        exact definite
      · cases wrong
    · trivial
  | .never, _, rfl, _ => trivial

theorem Term.Instance.definite (fits : σ.Fits arity) : {t u : Term} → {k : Kind} → t.Instance σ u →
    t.Definite arity k → u.Definite arity k
  | .ty _, _, .type, ⟨_, rfl, inst⟩, definite | .perm _, _, .perm, ⟨_, rfl, inst⟩, definite =>
    inst.definite fits definite

theorem Term.InstanceAll.definite (fits : σ.Fits arity) : {ts us : List Term} → {ks : List Kind} →
    Term.InstanceAll σ ts us → Term.AllDefinite arity ks ts → Term.AllDefinite arity ks us
  | [], _, [], rfl, _ => trivial
  | _ :: _, _, _ :: _, ⟨_, _, rfl, first, rest⟩, definite =>
    ⟨first.definite fits definite.1, rest.definite fits definite.2⟩
end

mutual
theorem Ty.Instance.leases (from_ : σ.LeasesFrom places) : {t u : Ty} → t.Instance σ u →
    t.leases ⊆ places → u.leases ⊆ places
  | .perm _ _, _, ⟨p', t', outer, inner, same⟩, within => by
    obtain ⟨here, there⟩ := List.append_subset.mp within
    have both : p'.leases ++ t'.leases ⊆ places :=
      List.append_subset.mpr ⟨outer.leases from_ here, inner.leases from_ there⟩
    rcases same with rfl | rfl
    · exact both
    · exact List.Subset.trans (Ty.leases_applyTo p' t') both
  | .named _ _, _, ⟨_, rfl, all⟩, within => all.leases from_ within
  | .var v, _, inst, _ => by
    rcases inst with found | ⟨_, rfl⟩
    · exact from_ v _ found
    · exact List.nil_subset _
  | .infer _, _, rfl, within | .never, _, rfl, within | .error _, _, rfl, within => within

theorem Term.Instance.leases (from_ : σ.LeasesFrom places) : {t u : Term} → t.Instance σ u →
    t.leases ⊆ places → u.leases ⊆ places
  | .ty _, _, ⟨_, rfl, inst⟩, within | .perm _, _, ⟨_, rfl, inst⟩, within => inst.leases from_ within
  | .place _, _, rfl, within | .error _, _, rfl, within => within

theorem Term.InstanceAll.leases (from_ : σ.LeasesFrom places) : {ts us : List Term} →
    Term.InstanceAll σ ts us → Term.leasesAll ts ⊆ places → Term.leasesAll us ⊆ places
  | [], _, rfl, within => within
  | _ :: _, _, ⟨_, _, rfl, first, rest⟩, within => by
    obtain ⟨here, there⟩ := List.append_subset.mp within
    exact List.append_subset.mpr ⟨first.leases from_ here, rest.leases from_ there⟩
end

end Ground

section Declared

variable {σ τ τ' : Substitution} {vs : List Variable}

def Substitution.Match (σ : Substitution) (vs : List Variable) (τ τ' : Substitution) : Prop :=
  ∀ v ∈ vs, ∃ a b, τ.lookup v = some a ∧ τ'.lookup v = some b ∧ a.Instance σ b

def Substitution.Agree (σ : Substitution) (x y : Variable × Term) : Prop :=
  x.1 = y.1 ∧ x.2.Instance σ y.2

theorem Substitution.agree_zip {as bs : List Term} (all : List.Forall₂ (Term.Instance σ) as bs) :
    List.Forall₂ (Agree σ) (vs.zip as) (vs.zip bs) := by
  induction vs generalizing as bs with
  | nil => exact .nil
  | cons v vs ih =>
    cases all with
    | nil => exact .nil
    | cons first rest => exact .cons ⟨rfl, first⟩ (ih rest)

theorem Substitution.agree_find {xs ys : List (Variable × Term)} (pairs : List.Forall₂ (Agree σ) xs ys)
    {v : Variable} (listed : ∃ entry ∈ xs, entry.1 = v) :
    ∃ a b, (xs.find? fun entry => entry.1 = v).map (·.2) = some a ∧
      (ys.find? fun entry => entry.1 = v).map (·.2) = some b ∧ a.Instance σ b := by
  induction pairs with
  | nil => exact absurd listed.choose_spec.1 List.not_mem_nil
  | @cons x y xs ys first _ ih =>
    obtain ⟨key, inst⟩ := first
    by_cases same : x.1 = v
    · refine ⟨x.2, y.2, ?_, ?_, inst⟩
      · rw [List.find?_cons_of_pos (by simpa using same)]
        rfl
      · rw [List.find?_cons_of_pos (by simpa [← key] using same)]
        rfl
    · obtain ⟨entry, member, found⟩ := listed
      have inside : entry ∈ xs := (List.mem_cons.mp member).resolve_left fun h => same (h ▸ found)
      rw [List.find?_cons_of_neg (by simpa using same), List.find?_cons_of_neg (by simpa [← key] using same)]
      exact ih ⟨entry, inside, found⟩

theorem Substitution.match_zip {as bs : List Term} (all : Term.InstanceAll σ as bs)
    (arity : vs.length = as.length) : Match σ vs ⟨vs.zip as⟩ ⟨vs.zip bs⟩ := by
  intro v member
  refine agree_find (List.forall₂_reverse_iff.mpr (agree_zip all.forall₂)) ?_
  rw [← List.map_fst_zip (Nat.le_of_eq arity)] at member
  obtain ⟨entry, listed, same⟩ := List.mem_map.mp member
  exact ⟨entry, List.mem_reverse.mpr listed, same⟩

theorem Substitution.Match.found (agree : Match σ vs τ τ') {v : Variable} (member : v ∈ vs) {t : Term}
    (known : τ.lookup v = some t) : ∃ u, t.Instance σ u ∧ (Place.var v).replace τ'.replacement = u.expectPlace ∧
      (Perm.var v).replace τ'.replacement = u.expectPerm ∧ (Ty.var v).replace τ'.replacement = u.expectTy := by
  obtain ⟨a, u, first, second, inst⟩ := agree v member
  cases first.symm.trans known
  have looked : τ'.replacement.var v = .ok (some u) := congrArg Except.ok second
  refine ⟨u, inst, ?_, ?_, ?_⟩
  · rw [Place.replace, looked]
    rfl
  · rw [Perm.replace, looked]
    rfl
  · rw [Ty.replace, looked]
    rfl

theorem Substitution.Match.sends (agree : Match σ vs τ τ') :
    τ.Sends ⟨fun _ _ => True, (· ∈ vs), (· ∈ vs), True⟩ ((Congruence.instances σ).replacing τ'.replacement) where
  shown _ := id
  itself v member none := by
    obtain ⟨_, _, first, _⟩ := agree v member
    cases none.symm.trans first
  place _ member p known := by
    obtain ⟨_, rfl, place, -, -⟩ := agree.found member known
    exact ⟨p, place, rfl⟩
  perm _ member _ known := by
    obtain ⟨_, ⟨q, rfl, inst⟩, -, perm, -⟩ := agree.found member known
    exact ⟨q, perm, inst⟩
  ty _ member _ known := by
    obtain ⟨_, ⟨u, rfl, inst⟩, -, -, ty⟩ := agree.found member known
    exact ⟨u, ty, inst⟩
  error _ member r known := by
    obtain ⟨_, rfl, place, perm, ty⟩ := agree.found member known
    exact ⟨⟨_, place, rfl⟩, ⟨_, perm, rfl⟩, _, ty, rfl⟩
  infer i := ⟨⟨_, rfl, rfl⟩, ⟨_, rfl, rfl⟩, _, rfl, rfl⟩

end Declared

namespace Session

structure Instantiates (σ : Substitution) (arity : TyName → List Kind) (s s' : Session) : Prop where
  fits : σ.Fits arity
  program : s'.program = s.program
  closed : ∀ f t, s.program.fieldTy f = some t → t.occurrences ⊆ f.owner.generics
  places : ∀ v t, s.variableTys.lookup v = some t →
    ∃ t', t.subst σ = .ok t' ∧ s'.variableTys.lookup v = some t'

def Grants (s' : Session) (env' : Env) (σ : Substitution) (env : Env) : Prop :=
  ∀ v p, env.assumes v p = true → v.kind ≠ .place ∧ s'.Proves env' p (σ.termOf v)

variable {σ : Substitution} {arity : TyName → List Kind} {s s' : Session} {env env' : Env}

section Typing

variable (instantiates : s.Instantiates σ arity s')
include instantiates

theorem Instantiates.fieldTy {t u r : Ty} {f : Field} (inst : t.Instance σ u)
    (found : s.fieldTy? t f = some r) : ∃ r', s'.fieldTy? u f = some r' ∧ r.Instance σ r' := by
  obtain ⟨args, ty, declared, head, known, arity, replaced, rfl⟩ := fieldTy?_eq_some_iff.mp found
  obtain ⟨args', head', all, perms⟩ := inst.red head
  have closed := instantiates.closed f ty known
  have inside : ty.In ⟨fun _ _ => True, (· ∈ f.owner.generics), (· ∈ f.owner.generics), True⟩ :=
    ty.in_all.imp ⟨fun _ occurs _ => closed occurs, fun _ occurs _ => closed occurs, fun _ _ _ => id, id⟩
  obtain ⟨declared', replaced', inst'⟩ :=
    Ty.replaced (Substitution.match_zip all arity).sends inside replaced
  have arity' : f.owner.generics.length = args'.length := arity.trans all.forall₂.length_eq
  refine ⟨u.red.perm.applyTo declared', fieldTy?_eq_some_iff.mpr ?_, ?_⟩
  · exact ⟨args', ty, declared', head', by rw [instantiates.program, known], arity', replaced', rfl⟩
  · generalize t.red.perm = p at perms
    cases p with
    | my =>
      have same : u.red.perm = .my := perms
      rw [same]
      exact inst'
    | _ => exact ⟨_, _, perms, inst', .inr rfl⟩

theorem Instantiates.placeTy {p : Place} {t : Ty} (found : s.placeTy? p = some t) :
    ∃ t', s'.placeTy? p = some t' ∧ t.Instance σ t' := by
  induction p generalizing t with
  | var v =>
    obtain ⟨t', replaced, found'⟩ := instantiates.places v t found
    exact ⟨t', found', Ty.instance_of_replace instantiates.fits t replaced⟩
  | field base f ih =>
    obtain ⟨owner, known, found⟩ := Option.bind_eq_some_iff.mp found
    obtain ⟨owner', known', inst⟩ := ih known
    obtain ⟨t', found', inst'⟩ := instantiates.fieldTy inst found
    exact ⟨t', Option.bind_eq_some_iff.mpr ⟨owner', known', found'⟩, inst'⟩
  | index base | infer i | error r => cases found

end Typing

section Proving

variable {p : Predicate}

theorem Proves.applyTo {q : Perm} {t : Ty} (proves : s.Proves env p (.ty (.perm q t))) :
    s.Proves env p (.ty (q.applyTo t)) := by
  cases q with
  | my =>
    cases either : p.isDisjunctive with
    | true =>
      refine ((proves_perm_either either).mp proves).resolve_left fun own => ?_
      rw [proves_my] at own
      cases p <;> simp_all [Predicate.ofMy, Predicate.isDisjunctive]
    | false => exact ((proves_perm_both either).mp proves).2
  | _ => exact proves

theorem Proves.compose {l r : Perm} (proves : s.Proves env p (.perm (.apply l r))) :
    s.Proves env p (.perm (l.compose r)) := by
  have own (either : p.isDisjunctive = true) : ¬ s.Proves env p (.perm .my) := by
    rw [proves_my]
    cases p <;> simp_all [Predicate.ofMy, Predicate.isDisjunctive]
  rcases l.compose_cases r with ⟨rfl, same⟩ | ⟨rfl, same⟩ | same <;> rw [same]
  · cases either : p.isDisjunctive with
    | true => exact ((proves_apply_either either).mp proves).resolve_left (own either)
    | false => exact ((proves_apply_both either).mp proves).2
  · cases either : p.isDisjunctive with
    | true => exact ((proves_apply_either either).mp proves).resolve_right (own either)
    | false => exact ((proves_apply_both either).mp proves).1
  · exact proves

section Generics

variable (grants : s'.Grants env' σ env) {v : Variable} (assumed : env.assumes v p = true)
include grants assumed

theorem Grants.assumes (free : σ.lookup v = none) : env'.assumes v p = true := by
  obtain ⟨generic, proves⟩ := grants v p assumed
  rw [Substitution.termOf, free, Option.getD_none, Term.ofVariable] at proves
  cases kind : v.kind <;> rw [kind] at proves
  · exact proves_tyVar.mp proves
  · exact proves_permVar.mp proves
  · exact (generic kind).elim

theorem Grants.proves {t : Term} (found : σ.lookup v = some t) : s'.Proves env' p t := by
  have proves := (grants v p assumed).2
  rwa [Substitution.termOf, found, Option.getD_some] at proves

end Generics

theorem Proves.instantiate (instantiates : s.Instantiates σ arity s') (grants : s'.Grants env' σ env)
    {t u : Term} (proves : s.Proves env p t) (inst : t.Instance σ u) : s'.Proves env' p u := by
  induction proves generalizing u with
  | permOf either _ ih =>
    obtain ⟨_, rfl, q', t', first, _, rfl | rfl⟩ := inst
    · exact .permOf either (ih ⟨q', rfl, first⟩)
    · exact .applyTo (.permOf either (ih ⟨q', rfl, first⟩))
  | tyOf either _ ih =>
    obtain ⟨_, rfl, q', t', _, second, rfl | rfl⟩ := inst
    · exact .tyOf either (ih ⟨t', rfl, second⟩)
    · exact .applyTo (.tyOf either (ih ⟨t', rfl, second⟩))
  | tyBoth both _ _ perm ty =>
    obtain ⟨_, rfl, q', t', first, second, rfl | rfl⟩ := inst
    · exact .tyBoth both (perm ⟨q', rfl, first⟩) (ty ⟨t', rfl, second⟩)
    · exact .applyTo (.tyBoth both (perm ⟨q', rfl, first⟩) (ty ⟨t', rfl, second⟩))
  | always rule =>
    obtain ⟨_, rfl, args', rfl, _⟩ := inst
    exact .always rule
  | argument rule member _ ih =>
    obtain ⟨_, rfl, args', rfl, all⟩ := inst
    obtain ⟨a', member', inst⟩ := all.exists_right member
    exact .argument rule member' (ih inst)
  | arguments rule _ ih =>
    obtain ⟨_, rfl, args', rfl, all⟩ := inst
    refine .arguments rule fun a' member' => ?_
    obtain ⟨a, member, inst⟩ := all.exists_left member'
    exact ih a member inst
  | tyVar assumed =>
    obtain ⟨_, rfl, found | ⟨free, rfl⟩⟩ := inst
    · exact grants.proves assumed found
    · exact .tyVar (grants.assumes assumed free)
  | never rule =>
    obtain ⟨_, rfl, rfl⟩ := inst
    exact .never rule
  | my rule =>
    obtain ⟨_, rfl, rfl⟩ := inst
    exact .my rule
  | our rule =>
    obtain ⟨_, rfl, rfl⟩ := inst
    exact .our rule
  | shared rule =>
    obtain ⟨_, rfl, rfl⟩ := inst
    exact .shared rule
  | leased depends _ ih =>
    obtain ⟨_, rfl, rfl⟩ := inst
    exact .leased depends fun place member => ih place member rfl
  | lent lent =>
    obtain ⟨_, rfl, rfl⟩ := inst
    exact .lent lent
  | left either _ ih =>
    obtain ⟨_, rfl, l', r', first, _, rfl | rfl⟩ := inst
    · exact .left either (ih ⟨l', rfl, first⟩)
    · exact .compose (.left either (ih ⟨l', rfl, first⟩))
  | right either _ ih =>
    obtain ⟨_, rfl, l', r', _, second, rfl | rfl⟩ := inst
    · exact .right either (ih ⟨r', rfl, second⟩)
    · exact .compose (.right either (ih ⟨r', rfl, second⟩))
  | permBoth both _ _ left right =>
    obtain ⟨_, rfl, l', r', first, second, rfl | rfl⟩ := inst
    · exact .permBoth both (left ⟨l', rfl, first⟩) (right ⟨r', rfl, second⟩)
    · exact .compose (.permBoth both (left ⟨l', rfl, first⟩) (right ⟨r', rfl, second⟩))
  | permVar assumed =>
    obtain ⟨_, rfl, found | ⟨free, rfl⟩⟩ := inst
    · exact grants.proves assumed found
    · exact .permVar (grants.assumes assumed free)
  | place typed _ ih =>
    obtain rfl := inst
    obtain ⟨t', typed', inst⟩ := instantiates.placeTy typed
    exact .place typed' (ih ⟨t', rfl, inst⟩)

end Proving

end Session

end Ownership
