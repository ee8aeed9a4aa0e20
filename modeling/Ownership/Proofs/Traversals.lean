import Mathlib.Data.List.Forall2
import Ownership.Proofs.Lexicon

namespace Ownership

theorem Except.exists_of_bind {ε α β : Type} {x : Except ε α} {f : α → Except ε β} {b : β}
    (h : (x >>= f) = .ok b) : ∃ a, x = .ok a ∧ f a = .ok b := by
  cases x with
  | error e => cases h
  | ok a => exact ⟨a, rfl, h⟩

/-- What steps end in. -/
structure Judgment (m : Type → Type) [Monad m] where
  Ends : {α : Type} → m α → (α → Prop) → Prop
  ends_pure : ∀ {α : Type} {a : α} {P : α → Prop}, P a → Ends (pure a) P
  ends_bind : ∀ {α β : Type} {x : m α} {f : α → m β} {P : α → Prop} {Q : β → Prop}, Ends x P →
    (∀ a, P a → Ends (f a) Q) → Ends (x >>= f) Q

/-- Relations that hold of terms built alike from related ones. -/
structure Congruence where
  place : Place → Place → Prop
  perm : Perm → Perm → Prop
  ty : Ty → Ty → Prop
  term : Term → Term → Prop
  field : ∀ {p q} f, place p q → place (.field p f) (.field q f)
  index : ∀ {p q}, place p q → place (.index p) (.index q)
  placeError : ∀ r, place (.error r) (.error r)
  my : perm .my .my
  our : perm .our .our
  shared : ∀ {ps qs}, List.Forall₂ place ps qs → perm (.shared ps) (.shared qs)
  leased : ∀ {ps qs}, List.Forall₂ place ps qs → perm (.leased ps) (.leased qs)
  apply : ∀ {l r l' r'}, perm l l' → perm r r' → perm (.apply l r) (.apply l' r')
  permError : ∀ r, perm (.error r) (.error r)
  applied : ∀ {p q t u}, perm p q → ty t u → ty (.perm p t) (.perm q u)
  named : ∀ name {ts us}, List.Forall₂ term ts us → ty (.named name ts) (.named name us)
  never : ty .never .never
  tyError : ∀ r, ty (.error r) (.error r)
  ofTy : ∀ {t u}, ty t u → term (.ty t) (.ty u)
  ofPerm : ∀ {p q}, perm p q → term (.perm p) (.perm q)
  ofPlace : ∀ {p q}, place p q → term (.place p) (.place q)
  termError : ∀ r, term (.error r) (.error r)

section Replacing

variable {m : Type → Type} [Monad m] [MonadLiftT (Except Violation) m]

structure Replacement.Relates (r : Replacement m) (J : Judgment m) (L : Lexicon) (S : Congruence) : Prop where
  shown : ∀ v, L.shown v → L.var v
  placeVar : ∀ v, L.var v → J.Ends ((Place.var v).replace r) (S.place (.var v))
  placeInfer : ∀ i, L.infer .place i → J.Ends ((Place.infer i).replace r) (S.place (.infer i))
  permVar : ∀ v, L.var v → J.Ends ((Perm.var v).replace r) (S.perm (.var v))
  permInfer : ∀ i, L.infer .perm i → J.Ends ((Perm.infer i).replace r) (S.perm (.infer i))
  tyVar : ∀ v, L.var v → J.Ends ((Ty.var v).replace r) (S.ty (.var v))
  tyInfer : ∀ i, L.infer .type i → J.Ends ((Ty.infer i).replace r) (S.ty (.infer i))

variable {r : Replacement m} {J : Judgment m} {L : Lexicon} {S : Congruence} (relates : r.Relates J L S)
include relates

theorem Place.ends_replace : (p : Place) → p.In L → J.Ends (p.replace r) (S.place p)
  | .var v, h => relates.placeVar v h
  | .field base f, h => J.ends_bind (ends_replace base h) fun _ same => J.ends_pure (S.field f same)
  | .index base, h => J.ends_bind (ends_replace base h) fun _ same => J.ends_pure (S.index same)
  | .infer i, h => relates.placeInfer i h
  | .error e, _ => J.ends_pure (S.placeError e)

theorem Place.ends_replaceAll : (ps : List Place) → (∀ p ∈ ps, p.In L) →
    J.Ends (Place.replaceAll r ps) (List.Forall₂ S.place ps)
  | [], _ => J.ends_pure .nil
  | p :: ps, h =>
    have ⟨head, tail⟩ := List.forall_mem_cons.mp h
    J.ends_bind (p.ends_replace relates head) fun _ first => J.ends_bind (ends_replaceAll ps tail) fun _ rest =>
      J.ends_pure (.cons first rest)

theorem Perm.ends_replace : (p : Perm) → p.In L → J.Ends (p.replace r) (S.perm p)
  | .my, _ => J.ends_pure S.my
  | .our, _ => J.ends_pure S.our
  | .shared ps, h =>
    have places := fun p member => (h p member).mono (Lexicon.sharing_within relates.shown)
    J.ends_bind (Place.ends_replaceAll relates ps places) fun _ all => J.ends_pure (S.shared all)
  | .leased ps, h => J.ends_bind (Place.ends_replaceAll relates ps h) fun _ all => J.ends_pure (S.leased all)
  | .apply left right, h =>
    J.ends_bind (ends_replace left h.1) fun _ first => J.ends_bind (ends_replace right h.2) fun _ second =>
      J.ends_pure (S.apply first second)
  | .infer i, h => relates.permInfer i h
  | .var v, h => relates.permVar v h
  | .error e, _ => J.ends_pure (S.permError e)

omit relates in
mutual
theorem Ty.ends_replace (relates : r.Relates J L S) : (t : Ty) → t.In L → J.Ends (t.replace r) (S.ty t)
  | .perm p t, h => by
    refine J.ends_bind (p.ends_replace relates h.1) fun _ outer => ?_
    exact J.ends_bind (Ty.ends_replace relates t h.2) fun _ inner => J.ends_pure (S.applied outer inner)
  | .named name args, h => J.ends_bind (Term.ends_replaceAll relates args h) fun _ all => J.ends_pure (S.named name all)
  | .infer i, h => relates.tyInfer i h
  | .var v, h => relates.tyVar v h
  | .never, _ => J.ends_pure S.never
  | .error e, _ => J.ends_pure (S.tyError e)

theorem Term.ends_replace (relates : r.Relates J L S) : (t : Term) → t.In L → J.Ends (t.replace r) (S.term t)
  | .ty t, h => J.ends_bind (Ty.ends_replace relates t h) fun _ same => J.ends_pure (S.ofTy same)
  | .perm p, h => J.ends_bind (p.ends_replace relates h) fun _ same => J.ends_pure (S.ofPerm same)
  | .place p, h => J.ends_bind (p.ends_replace relates h.2) fun _ same => J.ends_pure (S.ofPlace same)
  | .error e, _ => J.ends_pure (S.termError e)

theorem Term.ends_replaceAll (relates : r.Relates J L S) : (ts : List Term) → Term.AllIn L ts →
    J.Ends (Term.replaceAll r ts) (List.Forall₂ S.term ts)
  | [], _ => J.ends_pure .nil
  | t :: ts, h => by
    refine J.ends_bind (Term.ends_replace relates t h.1) fun _ first => ?_
    exact J.ends_bind (Term.ends_replaceAll relates ts h.2) fun _ rest => J.ends_pure (.cons first rest)
end

end Replacing

def Judgment.misfit : Judgment (Except Violation) where
  Ends x P := EndsIn P Violation.IsMisfit x
  ends_pure := id
  ends_bind := EndsIn.bind

section Substituting

variable {σ : Substitution} {L : Lexicon} {S : Congruence}

/-- The relations hold of the variables and what the substitution gives for them. -/
structure Substitution.Sends (σ : Substitution) (L : Lexicon) (S : Congruence) : Prop where
  shown : ∀ v, L.shown v → L.var v
  itself : ∀ v, L.var v → σ.lookup v = none →
    S.place (.var v) (.var v) ∧ S.perm (.var v) (.var v) ∧ S.ty (.var v) (.var v)
  place : ∀ v, L.var v → ∀ p, σ.lookup v = some (.place p) → S.place (.var v) p
  perm : ∀ v, L.var v → ∀ p, σ.lookup v = some (.perm p) → S.perm (.var v) p
  ty : ∀ v, L.var v → ∀ t, σ.lookup v = some (.ty t) → S.ty (.var v) t
  error : ∀ v, L.var v → ∀ r, σ.lookup v = some (.error r) →
    S.place (.var v) (.error r) ∧ S.perm (.var v) (.error r) ∧ S.ty (.var v) (.error r)
  infer : ∀ i, S.place (.infer i) (.infer i) ∧ S.perm (.infer i) (.infer i) ∧ S.ty (.infer i) (.infer i)

theorem ends_lookup {α : Type} {P : α → Prop} {a : α} {f : Term → Except Violation α} {v : Variable}
    (stays : σ.lookup v = none → P a)
    (becomes : ∀ t, σ.lookup v = some t → EndsIn P Violation.IsMisfit (f t)) :
    EndsIn P Violation.IsMisfit (match σ.lookup v with
      | none => .ok a
      | some t => f t) := by
  cases found : σ.lookup v with
  | none => exact stays found
  | some t => exact becomes t found

theorem Substitution.Sends.relates (sends : σ.Sends L S) : σ.replacement.Relates .misfit L S where
  shown := sends.shown
  placeVar v known := ends_lookup (fun none => (sends.itself v known none).1) fun t found => by
    cases t with
    | place p => exact sends.place v known p found
    | error r => exact (sends.error v known r found).1
    | _ => trivial
  permVar v known := ends_lookup (fun none => (sends.itself v known none).2.1) fun t found => by
    cases t with
    | perm p => exact sends.perm v known p found
    | error r => exact (sends.error v known r found).2.1
    | _ => trivial
  tyVar v known := ends_lookup (fun none => (sends.itself v known none).2.2) fun t found => by
    cases t with
    | ty t => exact sends.ty v known t found
    | error r => exact (sends.error v known r found).2.2
    | _ => trivial
  placeInfer i _ := (sends.infer i).1
  permInfer i _ := (sends.infer i).2.1
  tyInfer i _ := (sends.infer i).2.2

theorem Ty.replaced (sends : σ.Sends L S) {t u : Ty} (inside : t.In L) (replaced : t.replace σ.replacement = .ok u) :
    S.ty t u := (t.ends_replace sends.relates inside).of_ok replaced

theorem forall_mem_of_forall₂ {α β : Type} {R : α → β → Prop} {P : α → Prop} {Q : β → Prop} {as : List α}
    {bs : List β} (all : List.Forall₂ R as bs) (each : ∀ a b, R a b → P a → Q b) (h : ∀ a ∈ as, P a) : ∀ b ∈ bs, Q b := by
  induction all with
  | nil => exact List.forall_mem_nil _
  | cons first _ ih =>
    obtain ⟨head, tail⟩ := List.forall_mem_cons.mp h
    exact List.forall_mem_cons.mpr ⟨each _ _ first head, ih tail⟩

/-- What was in the first lexicon is in the second. -/
def Congruence.keeping (L M : Lexicon) (places : L.places → M.places) : Congruence where
  place p q := (p.In L → q.In M) ∧ (p.In L.sharing → q.In M.sharing)
  perm p q := p.In L → q.In M
  ty t u := t.In L → u.In M
  term t u := t.In L → u.In M
  field _ := id
  index := id
  placeError _ := ⟨id, id⟩
  my := id
  our := id
  shared all := forall_mem_of_forall₂ all fun _ _ both => both.2
  leased all := forall_mem_of_forall₂ all fun _ _ both => both.1
  apply left right both := ⟨left both.1, right both.2⟩
  permError _ := id
  applied outer inner both := ⟨outer both.1, inner both.2⟩
  named _ _ _ all := by
    rw [Ty.in_named, Ty.in_named]
    exact forall_mem_of_forall₂ all fun _ _ => id
  never := id
  tyError _ := id
  ofTy := id
  ofPerm := id
  ofPlace both known := ⟨places known.1, both.1 known.2⟩
  termError _ := id

theorem Substitution.sends_under : σ.Sends .all (.keeping (L.under σ) L id) where
  shown _ := id
  itself _ _ none := ⟨⟨Lexicon.var_of_under none, Lexicon.var_of_under (L := L.sharing) none⟩,
    Lexicon.var_of_under none, Lexicon.var_of_under none⟩
  place _ _ _ found := ⟨Lexicon.fills_of_under found, Lexicon.fills_of_under (L := L.sharing) found⟩
  perm _ _ _ found := Lexicon.fills_of_under found
  ty _ _ _ found := Lexicon.fills_of_under found
  error _ _ _ _ := ⟨⟨fun _ => trivial, fun _ => trivial⟩, fun _ => trivial, fun _ => trivial⟩
  infer _ := ⟨⟨id, id⟩, id, id⟩

theorem Ty.In.subst {t : Ty} (h : t.In (L.under σ)) : EndsIn (Ty.In L) Violation.IsMisfit (t.subst σ) :=
  (t.ends_replace Substitution.sends_under.relates t.in_all).imp fun _ keeps => keeps h

theorem Term.In.subst {t : Term} (h : t.In (L.under σ)) : EndsIn (Term.In L) Violation.IsMisfit (t.subst σ) :=
  (t.ends_replace Substitution.sends_under.relates t.in_all).imp fun _ keeps => keeps h

theorem Ty.ends_mapM_subst {A : Nat → Lexicon} {ts : List Ty}
    (h : ∀ (k : Nat) (t : Ty), ts[k]? = some t → t.In ((A k).under σ)) :
    EndsIn (fun us => us.length = ts.length ∧ ∀ (k : Nat) (u : Ty), us[k]? = some u → u.In (A k))
      Violation.IsMisfit (ts.mapM (Ty.subst σ)) := by
  induction ts generalizing A with
  | nil => exact ⟨rfl, fun k u found => nomatch found⟩
  | cons t ts ih =>
    rw [List.mapM_cons]
    refine (h 0 t rfl).subst.bind fun u first => ?_
    refine (ih (A := fun k => A (k + 1)) fun k t found => h (k + 1) t found).bind fun us rest => ?_
    refine ⟨congrArg Nat.succ rest.1, fun k v found => ?_⟩
    cases k with
    | zero =>
      cases found
      exact first
    | succ k => exact rest.2 k v found

theorem InputOutput.In.subst {A : Nat → Lexicon} {B : Lexicon} {C : Predicate → Lexicon} {types : InputOutput}
    (h : types.In (fun k => (A k).under σ) (B.under σ) fun p => (C p).under σ) :
    EndsIn (fun opened => opened.In A B C ∧ opened.inputTys.length = types.inputTys.length)
      Violation.IsMisfit (types.subst σ) := by
  refine (Ty.ends_mapM_subst h.inputTys).bind fun inputTys inputs => ?_
  refine h.outputTy.subst.bind fun outputTy output => ?_
  refine (EndsIn.mapM (Q := fun c => c.subject.In (C c.predicate)) fun c member => ?_).bind fun clauses all =>
    ⟨⟨inputs.2, output, all⟩, inputs.1⟩
  exact (h.clauses c member).subst.bind fun subject => id

end Substituting

namespace Congruence

variable (S : Congruence) {r : Replacement (Except Violation)}

variable {S} in
theorem exists_places {ps qs : List Place}
    (all : List.Forall₂ (fun p q => ∃ q', p.replace r = .ok q' ∧ S.place q q') ps qs) :
    ∃ qs', Place.replaceAll r ps = .ok qs' ∧ List.Forall₂ S.place qs qs' := by
  induction all with
  | nil => exact ⟨[], rfl, .nil⟩
  | cons first _ ih =>
    obtain ⟨q', found, same⟩ := first
    obtain ⟨qs', rest, all⟩ := ih
    exact ⟨q' :: qs', by rw [Place.replaceAll, found, rest]; rfl, .cons same all⟩

variable {S} in
theorem exists_terms {ts us : List Term}
    (all : List.Forall₂ (fun t u => ∃ u', t.replace r = .ok u' ∧ S.term u u') ts us) :
    ∃ us', Term.replaceAll r ts = .ok us' ∧ List.Forall₂ S.term us us' := by
  induction all with
  | nil => exact ⟨[], rfl, .nil⟩
  | cons first _ ih =>
    obtain ⟨u', found, same⟩ := first
    obtain ⟨us', rest, all⟩ := ih
    exact ⟨u' :: us', by rw [Term.replaceAll, found, rest]; rfl, .cons same all⟩

/-- The term is replaced as well, by one that the other stands in the relation to. -/
def replacing (r : Replacement (Except Violation)) : Congruence where
  place p q := ∃ q', p.replace r = .ok q' ∧ S.place q q'
  perm p q := ∃ q', p.replace r = .ok q' ∧ S.perm q q'
  ty t u := ∃ u', t.replace r = .ok u' ∧ S.ty u u'
  term t u := ∃ u', t.replace r = .ok u' ∧ S.term u u'
  field f := fun ⟨_, found, same⟩ => ⟨_, by rw [Place.replace, found]; rfl, S.field f same⟩
  index := fun ⟨_, found, same⟩ => ⟨_, by rw [Place.replace, found]; rfl, S.index same⟩
  placeError e := ⟨_, rfl, S.placeError e⟩
  my := ⟨_, rfl, S.my⟩
  our := ⟨_, rfl, S.our⟩
  shared all := have ⟨_, found, all⟩ := exists_places all
    ⟨_, by rw [Perm.replace, found]; rfl, S.shared all⟩
  leased all := have ⟨_, found, all⟩ := exists_places all
    ⟨_, by rw [Perm.replace, found]; rfl, S.leased all⟩
  apply := fun ⟨_, left, first⟩ ⟨_, right, second⟩ =>
    ⟨_, by rw [Perm.replace, left, right]; rfl, S.apply first second⟩
  permError e := ⟨_, rfl, S.permError e⟩
  applied := fun ⟨_, outer, first⟩ ⟨_, inner, second⟩ =>
    ⟨_, by rw [Ty.replace, outer, inner]; rfl, S.applied first second⟩
  named name _ _ all := have ⟨_, found, all⟩ := exists_terms all
    ⟨_, by rw [Ty.replace, found]; rfl, S.named name all⟩
  never := ⟨_, rfl, S.never⟩
  tyError e := ⟨_, rfl, S.tyError e⟩
  ofTy := fun ⟨_, found, same⟩ => ⟨_, by rw [Term.replace, found]; rfl, S.ofTy same⟩
  ofPerm := fun ⟨_, found, same⟩ => ⟨_, by rw [Term.replace, found]; rfl, S.ofPerm same⟩
  ofPlace := fun ⟨_, found, same⟩ => ⟨_, by rw [Term.replace, found]; rfl, S.ofPlace same⟩
  termError e := ⟨_, rfl, S.termError e⟩

end Congruence

end Ownership
