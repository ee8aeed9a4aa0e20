import Ownership.Proofs.Ground

namespace Ownership

mutual
def Ty.hasNever : Ty → Bool
  | .perm _ t => t.hasNever
  | .named _ args => Term.anyHasNever args
  | .never => true
  | _ => false

def Term.hasNever : Term → Bool
  | .ty t => t.hasNever
  | _ => false

def Term.anyHasNever : List Term → Bool
  | [] => false
  | t :: ts => t.hasNever || Term.anyHasNever ts
end

theorem Term.hasNever_of_mem {t : Term} {ts : List Term} (member : t ∈ ts) (never : t.hasNever = true) :
    Term.anyHasNever ts = true := by
  induction ts with
  | nil => cases member
  | cons u ts ih =>
    rw [anyHasNever, Bool.or_eq_true]
    rcases List.mem_cons.mp member with rfl | later
    · exact .inl never
    · exact .inr (ih later)

theorem Predicate.owned_of_everyArgument {p : Predicate} {name : TyName}
    (rule : p.ofNamed name = .everyArgument) : p = .owned := by
  cases p <;> cases name <;> simp_all [Predicate.ofNamed] <;> split at rule <;> cases rule

namespace Session

inductive Reaches (s : Session) : Term → Place → Prop where
  | leased {t : Term} {place : Place} : place ∈ t.leases → Reaches s t place
  | through {t : Term} {place last : Place} {u : Ty} : place ∈ t.leases → s.placeTy? place = some u →
    Reaches s (.ty u) last → Reaches s t last

def NeverFree (s : Session) (t : Term) : Prop :=
  t.hasNever = false ∧ ∀ place u, s.Reaches t place → s.placeTy? place = some u → u.hasNever = false

section NeverFree

variable {s : Session} {t u : Term}

theorem NeverFree.part (free : s.NeverFree t) (never : u.hasNever = true → t.hasNever = true)
    (leases : u.leases ⊆ t.leases) : s.NeverFree u := by
  refine ⟨?_, fun place ty reaches typed => free.2 place ty ?_ typed⟩
  · by_contra found
    rw [Bool.not_eq_false] at found
    exact Bool.false_ne_true (free.1.symm.trans (never found))
  · cases reaches with
    | leased member => exact .leased (leases member)
    | through member typed' rest => exact .through (leases member) typed' rest

theorem NeverFree.place (free : s.NeverFree t) {place : Place} {ty : Ty} (member : place ∈ t.leases)
    (typed : s.placeTy? place = some ty) : s.NeverFree (.ty ty) :=
  ⟨free.2 place ty (.leased member) typed, fun last u reaches => free.2 last u (.through member typed reaches)⟩

end NeverFree

/-- Requiring the predicate of the term succeeds. -/
inductive Accepts (s : Session) (env : Env) (p : Predicate) : Term → Prop where
  | tyEither {q : Perm} {t : Ty} : p.isDisjunctive = true →
    (¬ s.Proves env p (.ty t) → Accepts s env p (.perm q)) →
    (¬ s.Proves env p (.perm q) → Accepts s env p (.ty t)) → Accepts s env p (.ty (.perm q t))
  | tyBoth {q : Perm} {t : Ty} : p.isDisjunctive = false → Accepts s env p (.perm q) →
    Accepts s env p (.ty t) → Accepts s env p (.ty (.perm q t))
  | always {name : TyName} {args : List Term} : p.ofNamed name = .always →
    Accepts s env p (.ty (.named name args))
  | argument {name : TyName} {args : List Term} {t : Term} : p.ofNamed name = .someArgument →
    t ∈ args → s.Proves env p t → Accepts s env p (.ty (.named name args))
  | arguments {name : TyName} {args : List Term} : p.ofNamed name = .everyArgument →
    (∀ t ∈ args, Accepts s env p t) → Accepts s env p (.ty (.named name args))
  | tyVar {v : Variable} : env.assumes v p = true → Accepts s env p (.ty (.var v))
  | never : p = .move ∨ p = .owned → Accepts s env p (.ty .never)
  | my : p.ofMy = true → Accepts s env p (.perm .my)
  | our : p.ofOur = true → Accepts s env p (.perm .our)
  | shared {places : List Place} : p.ofShared = true → Accepts s env p (.perm (.shared places))
  | copied {places : List Place} : p = .copy → (∀ place ∈ places, Accepts s env p (.place place)) →
    Accepts s env p (.perm (.leased places))
  | moved {places : List Place} : p = .move → (∀ place ∈ places, s.Proves env p (.place place)) →
    Accepts s env p (.perm (.leased places))
  | lent {places : List Place} : p = .lent → Accepts s env p (.perm (.leased places))
  | permEither {l r : Perm} : p.isDisjunctive = true →
    (¬ s.Proves env p (.perm r) → Accepts s env p (.perm l)) →
    (¬ s.Proves env p (.perm l) → Accepts s env p (.perm r)) → Accepts s env p (.perm (.apply l r))
  | permBoth {l r : Perm} : p.isDisjunctive = false → Accepts s env p (.perm l) →
    Accepts s env p (.perm r) → Accepts s env p (.perm (.apply l r))
  | permVar {v : Variable} : env.assumes v p = true → Accepts s env p (.perm (.var v))
  | place {place : Place} {t : Ty} : s.placeTy? place = some t → Accepts s env p (.ty t) →
    Accepts s env p (.place place)

section Accepting

variable {s : Session} {env : Env} {p : Predicate}

@[simp] theorem accepts_my : s.Accepts env p (.perm .my) ↔ p.ofMy = true :=
  ⟨fun h => by cases h; assumption, .my⟩

@[simp] theorem accepts_our : s.Accepts env p (.perm .our) ↔ p.ofOur = true :=
  ⟨fun h => by cases h; assumption, .our⟩

@[simp] theorem accepts_shared {places : List Place} : s.Accepts env p (.perm (.shared places)) ↔ p.ofShared = true :=
  ⟨fun h => by cases h; assumption, .shared⟩

theorem accepts_leased {places : List Place} : s.Accepts env p (.perm (.leased places)) ↔ match p with
    | .copy => ∀ place ∈ places, s.Accepts env .copy (.place place)
    | .move => ∀ place ∈ places, s.Proves env .move (.place place)
    | .owned => False
    | .lent => True := by
  constructor
  · intro h
    cases h with
    | copied copy all => subst copy; exact all
    | moved move all => subst move; exact all
    | lent lent => subst lent; trivial
  · intro h
    cases p with
    | copy => exact .copied rfl h
    | move => exact .moved rfl h
    | owned => exact h.elim
    | lent => exact .lent rfl

theorem accepts_apply_either {l r : Perm} (either : p.isDisjunctive = true) :
    s.Accepts env p (.perm (.apply l r)) ↔ (¬ s.Proves env p (.perm r) → s.Accepts env p (.perm l)) ∧
      (¬ s.Proves env p (.perm l) → s.Accepts env p (.perm r)) := by
  refine ⟨fun h => ?_, fun h => .permEither either h.1 h.2⟩
  cases h with
  | permEither _ left right => exact ⟨left, right⟩
  | permBoth both => simp [either] at both

theorem accepts_apply_both {l r : Perm} (both : p.isDisjunctive = false) :
    s.Accepts env p (.perm (.apply l r)) ↔ s.Accepts env p (.perm l) ∧ s.Accepts env p (.perm r) := by
  refine ⟨fun h => ?_, fun h => .permBoth both h.1 h.2⟩
  cases h with
  | permEither either => simp [both] at either
  | permBoth _ left right => exact ⟨left, right⟩

@[simp] theorem accepts_permVar {v : Variable} : s.Accepts env p (.perm (.var v)) ↔ env.assumes v p = true :=
  ⟨fun h => by cases h; assumption, .permVar⟩

theorem accepts_perm_either {q : Perm} {t : Ty} (either : p.isDisjunctive = true) :
    s.Accepts env p (.ty (.perm q t)) ↔ (¬ s.Proves env p (.ty t) → s.Accepts env p (.perm q)) ∧
      (¬ s.Proves env p (.perm q) → s.Accepts env p (.ty t)) := by
  refine ⟨fun h => ?_, fun h => .tyEither either h.1 h.2⟩
  cases h with
  | tyEither _ perm ty => exact ⟨perm, ty⟩
  | tyBoth both => simp [either] at both

theorem accepts_perm_both {q : Perm} {t : Ty} (both : p.isDisjunctive = false) :
    s.Accepts env p (.ty (.perm q t)) ↔ s.Accepts env p (.perm q) ∧ s.Accepts env p (.ty t) := by
  refine ⟨fun h => ?_, fun h => .tyBoth both h.1 h.2⟩
  cases h with
  | tyEither either => simp [both] at either
  | tyBoth _ perm ty => exact ⟨perm, ty⟩

theorem accepts_named {name : TyName} {args : List Term} :
    s.Accepts env p (.ty (.named name args)) ↔ match p.ofNamed name with
      | .always => True
      | .never => False
      | .someArgument => ∃ t ∈ args, s.Proves env p t
      | .everyArgument => ∀ t ∈ args, s.Accepts env p t := by
  constructor
  · intro h
    cases h with
    | always rule => rw [rule]; trivial
    | argument rule member proves => rw [rule]; exact ⟨_, member, proves⟩
    | arguments rule all => rw [rule]; exact all
  · intro h
    cases rule : p.ofNamed name <;> rw [rule] at h
    · exact .always rule
    · exact h.elim
    · exact .argument rule h.choose_spec.1 h.choose_spec.2
    · exact .arguments rule h

@[simp] theorem accepts_tyVar {v : Variable} : s.Accepts env p (.ty (.var v)) ↔ env.assumes v p = true :=
  ⟨fun h => by cases h; assumption, .tyVar⟩

@[simp] theorem accepts_never : s.Accepts env p (.ty .never) ↔ p = .move ∨ p = .owned :=
  ⟨fun h => by cases h; assumption, .never⟩

theorem accepts_place {place : Place} {t : Ty} (typed : s.placeTy? place = some t) :
    s.Accepts env p (.place place) ↔ s.Accepts env p (.ty t) := by
  refine ⟨fun h => ?_, .place typed⟩
  cases h with
  | place typed' h =>
    rw [typed] at typed'
    cases typed'
    exact h

end Accepting

def Clean (s : Session) : Term → Prop
  | .place place => ∀ t, s.placeTy? place = some t → s.NeverFree (.ty t)
  | t => s.NeverFree t

section Clean

variable {s : Session} {l r q : Perm} {t : Ty} {places : List Place} {place : Place}

theorem Clean.perm (clean : s.Clean (.ty (.perm q t))) : s.Clean (.perm q) :=
  NeverFree.part clean nofun (List.subset_append_left _ _)

theorem Clean.ty (clean : s.Clean (.ty (.perm q t))) : s.Clean (.ty t) :=
  NeverFree.part clean id (List.subset_append_right _ _)

theorem Clean.left (clean : s.Clean (.perm (.apply l r))) : s.Clean (.perm l) :=
  NeverFree.part clean nofun (List.subset_append_left _ _)

theorem Clean.right (clean : s.Clean (.perm (.apply l r))) : s.Clean (.perm r) :=
  NeverFree.part clean nofun (List.subset_append_right _ _)

theorem Clean.leased (clean : s.Clean (.perm (.leased places))) (member : place ∈ places) :
    s.Clean (.place place) := fun _ typed => NeverFree.place clean member typed

theorem not_clean_never : ¬ s.Clean (.ty .never) := fun clean => nomatch clean.1

end Clean

variable {s : Session} {env : Env} {p : Predicate} {t : Term}

theorem Proves.accepts (proves : s.Proves env p t) (clean : p = .copy → s.Clean t) : s.Accepts env p t := by
  induction proves with
  | permOf either proves ih => exact .tyEither either (fun _ => ih fun h => (clean h).perm) (absurd proves)
  | tyOf either proves ih => exact .tyEither either (absurd proves) fun _ => ih fun h => (clean h).ty
  | tyBoth both _ _ perm ty => exact .tyBoth both (perm fun h => (clean h).perm) (ty fun h => (clean h).ty)
  | always rule => exact .always rule
  | argument rule member proves => exact .argument rule member proves
  | arguments rule _ ih =>
    have owned := Predicate.owned_of_everyArgument rule
    exact .arguments rule fun t member => ih t member fun copy => nomatch copy.symm.trans owned
  | tyVar assumed => exact .tyVar assumed
  | never holds =>
    cases p with
    | copy => exact (not_clean_never (clean rfl)).elim
    | owned => exact .never (.inr rfl)
    | _ => cases holds
  | my holds => exact .my holds
  | our holds => exact .our holds
  | shared holds => exact .shared holds
  | leased depends proves ih =>
    rcases depends with copy | move
    · exact .copied copy fun place member => ih place member fun h => (clean h).leased member
    · exact .moved move proves
  | lent lent => exact .lent lent
  | left either proves ih => exact .permEither either (fun _ => ih fun h => (clean h).left) (absurd proves)
  | right either proves ih => exact .permEither either (absurd proves) fun _ => ih fun h => (clean h).right
  | permBoth both _ _ left right =>
    exact .permBoth both (left fun h => (clean h).left) (right fun h => (clean h).right)
  | permVar assumed => exact .permVar assumed
  | place typed _ ih => exact .place typed (ih fun h => clean h _ typed)

theorem Accepts.proves (accepts : s.Accepts env p t) (clean : p = .move → s.Clean t) : s.Proves env p t := by
  induction accepts with
  | @tyEither q t either _ _ perm ty =>
    by_cases vouches : s.Proves env p (.ty t)
    · exact .tyOf either vouches
    · exact .permOf either (perm vouches fun h => (clean h).perm)
  | tyBoth both _ _ perm ty => exact .tyBoth both (perm fun h => (clean h).perm) (ty fun h => (clean h).ty)
  | always rule => exact .always rule
  | argument rule member proves => exact .argument rule member proves
  | arguments rule _ ih =>
    have owned := Predicate.owned_of_everyArgument rule
    exact .arguments rule fun t member => ih t member fun move => nomatch move.symm.trans owned
  | tyVar assumed => exact .tyVar assumed
  | never either =>
    rcases either with move | owned
    · exact (not_clean_never (clean move)).elim
    · exact .never (owned ▸ rfl)
  | my holds => exact .my holds
  | our holds => exact .our holds
  | shared holds => exact .shared holds
  | copied copy _ ih =>
    exact .leased (.inl copy) fun place member => ih place member fun move => nomatch move.symm.trans copy
  | moved move proves => exact .leased (.inr move) proves
  | lent lent => exact .lent lent
  | @permEither l r either _ _ left right =>
    by_cases vouches : s.Proves env p (.perm r)
    · exact .right either vouches
    · exact .left either (left vouches fun h => (clean h).left)
  | permBoth both _ _ left right =>
    exact .permBoth both (left fun h => (clean h).left) (right fun h => (clean h).right)
  | permVar assumed => exact .permVar assumed
  | place typed _ ih => exact .place typed (ih fun h => clean h _ typed)

end Session

def Perm.hasVariable : Perm → Bool
  | .apply l r => l.hasVariable || r.hasVariable
  | .var _ => true
  | _ => false

mutual
def Ty.hasVariable : Ty → Bool
  | .perm p t => p.hasVariable || t.hasVariable
  | .named _ args => Term.anyHasVariable args
  | .var _ => true
  | _ => false

def Term.hasVariable : Term → Bool
  | .ty t => t.hasVariable
  | .perm p => p.hasVariable
  | _ => false

def Term.anyHasVariable : List Term → Bool
  | [] => false
  | t :: ts => t.hasVariable || Term.anyHasVariable ts
end

namespace Session

inductive Refutes (s : Session) (env : Env) (p : Predicate) : Term → Prop where
  | permOf {q : Perm} {t : Ty} : p.isDisjunctive = false → Refutes s env p (.perm q) →
    Refutes s env p (.ty (.perm q t))
  | tyOf {q : Perm} {t : Ty} : p.isDisjunctive = false → Refutes s env p (.ty t) →
    Refutes s env p (.ty (.perm q t))
  | tyBoth {q : Perm} {t : Ty} : p.isDisjunctive = true → Refutes s env p (.perm q) →
    Refutes s env p (.ty t) → Refutes s env p (.ty (.perm q t))
  | named {name : TyName} {args : List Term} : p.ofNamed name = .never →
    Refutes s env p (.ty (.named name args))
  | argument {name : TyName} {args : List Term} {t : Term} : p.ofNamed name = .everyArgument →
    t ∈ args → Refutes s env p t → Refutes s env p (.ty (.named name args))
  | arguments {name : TyName} {args : List Term} : p.ofNamed name = .someArgument →
    (∀ t ∈ args, Refutes s env p t) → Refutes s env p (.ty (.named name args))
  | tyVar {v : Variable} : env.assumes v p = false → Refutes s env p (.ty (.var v))
  | my : p.ofMy = false → Refutes s env p (.perm .my)
  | our : p.ofOur = false → Refutes s env p (.perm .our)
  | shared {places : List Place} : p.ofShared = false → Refutes s env p (.perm (.shared places))
  | leased {places : List Place} {place : Place} : place ∈ places → Refutes s env p (.place place) →
    Refutes s env p (.perm (.leased places))
  | left {l r : Perm} : p.isDisjunctive = false → Refutes s env p (.perm l) →
    Refutes s env p (.perm (.apply l r))
  | right {l r : Perm} : p.isDisjunctive = false → Refutes s env p (.perm r) →
    Refutes s env p (.perm (.apply l r))
  | permBoth {l r : Perm} : p.isDisjunctive = true → Refutes s env p (.perm l) →
    Refutes s env p (.perm r) → Refutes s env p (.perm (.apply l r))
  | permVar {v : Variable} : env.assumes v p = false → Refutes s env p (.perm (.var v))
  | place {place : Place} {t : Ty} : s.placeTy? place = some t → Refutes s env p (.ty t) →
    Refutes s env p (.place place)

section Refuting

variable {s : Session} {env : Env} {p : Predicate} {q l r : Perm} {t : Ty} {v : Variable}

@[simp] theorem refutes_my : s.Refutes env p (.perm .my) ↔ p.ofMy = false :=
  ⟨fun h => by cases h; assumption, .my⟩

@[simp] theorem refutes_our : s.Refutes env p (.perm .our) ↔ p.ofOur = false :=
  ⟨fun h => by cases h; assumption, .our⟩

@[simp] theorem refutes_shared {places : List Place} : s.Refutes env p (.perm (.shared places)) ↔ p.ofShared = false :=
  ⟨fun h => by cases h; assumption, .shared⟩

@[simp] theorem refutes_leased {places : List Place} :
    s.Refutes env p (.perm (.leased places)) ↔ ∃ place ∈ places, s.Refutes env p (.place place) :=
  ⟨fun h => by cases h with | leased member h => exact ⟨_, member, h⟩, fun ⟨_, member, h⟩ => .leased member h⟩

theorem refutes_apply_either (both : p.isDisjunctive = false) :
    s.Refutes env p (.perm (.apply l r)) ↔ s.Refutes env p (.perm l) ∨ s.Refutes env p (.perm r) := by
  constructor
  · intro h
    cases h with
    | left _ h => exact .inl h
    | right _ h => exact .inr h
    | permBoth either => simp [both] at either
  · rintro (h | h)
    · exact .left both h
    · exact .right both h

theorem refutes_apply_both (either : p.isDisjunctive = true) :
    s.Refutes env p (.perm (.apply l r)) ↔ s.Refutes env p (.perm l) ∧ s.Refutes env p (.perm r) := by
  constructor
  · intro h
    cases h with
    | left both | right both => simp [either] at both
    | permBoth _ l r => exact ⟨l, r⟩
  · rintro ⟨l, r⟩
    exact .permBoth either l r

@[simp] theorem refutes_permVar : s.Refutes env p (.perm (.var v)) ↔ env.assumes v p = false :=
  ⟨fun h => by cases h; assumption, .permVar⟩

theorem refutes_perm_either (both : p.isDisjunctive = false) :
    s.Refutes env p (.ty (.perm q t)) ↔ s.Refutes env p (.perm q) ∨ s.Refutes env p (.ty t) := by
  constructor
  · intro h
    cases h with
    | permOf _ h => exact .inl h
    | tyOf _ h => exact .inr h
    | tyBoth either => simp [both] at either
  · rintro (h | h)
    · exact .permOf both h
    · exact .tyOf both h

theorem refutes_perm_both (either : p.isDisjunctive = true) :
    s.Refutes env p (.ty (.perm q t)) ↔ s.Refutes env p (.perm q) ∧ s.Refutes env p (.ty t) := by
  constructor
  · intro h
    cases h with
    | permOf both | tyOf both => simp [either] at both
    | tyBoth _ q t => exact ⟨q, t⟩
  · rintro ⟨q, t⟩
    exact .tyBoth either q t

theorem refutes_named {name : TyName} {args : List Term} :
    s.Refutes env p (.ty (.named name args)) ↔ match p.ofNamed name with
      | .always => False
      | .never => True
      | .someArgument => ∀ t ∈ args, s.Refutes env p t
      | .everyArgument => ∃ t ∈ args, s.Refutes env p t := by
  constructor
  · intro h
    cases h with
    | named rule => rw [rule]; trivial
    | argument rule member h => rw [rule]; exact ⟨_, member, h⟩
    | arguments rule all => rw [rule]; exact all
  · intro h
    cases rule : p.ofNamed name <;> rw [rule] at h
    · exact h.elim
    · exact .named rule
    · exact .arguments rule h
    · obtain ⟨t, member, refutes⟩ := h
      exact .argument rule member refutes

@[simp] theorem refutes_tyVar : s.Refutes env p (.ty (.var v)) ↔ env.assumes v p = false :=
  ⟨fun h => by cases h; assumption, .tyVar⟩

@[simp] theorem not_refutes_never : ¬ s.Refutes env p (.ty .never) := nofun

theorem refutes_place {place : Place} (typed : s.placeTy? place = some t) :
    s.Refutes env p (.place place) ↔ s.Refutes env p (.ty t) := by
  constructor
  · intro h
    cases h with
    | place typed' h =>
      cases typed.symm.trans typed'
      exact h
  · exact .place typed

end Refuting

section Complements

variable {s : Session} {env : Env} {p : Predicate} {t : Term}

theorem Refutes.not_proves (refutes : s.Refutes env p t) (depends : p = .copy ∨ p = .move) : ¬ s.Proves env p t := by
  induction refutes with
  | permOf both _ ih | tyOf both _ ih => simp [proves_perm_both both, ih]
  | tyBoth either _ _ perm ty => simp [proves_perm_either either, perm, ty]
  | named rule => simp [proves_named, rule]
  | argument rule member _ ih =>
    simp only [proves_named, rule]
    exact fun all => ih (all _ member)
  | arguments rule _ ih =>
    simp only [proves_named, rule]
    rintro ⟨t, member, proves⟩
    exact ih t member proves
  | tyVar assumed | permVar assumed => simp [assumed]
  | my fails | our fails | shared fails => simp [fails]
  | leased member _ ih =>
    rw [proves_leased depends]
    exact fun all => ih (all _ member)
  | left both _ ih | right both _ ih => simp [proves_apply_both both, ih]
  | permBoth either _ _ left right => simp [proves_apply_either either, left, right]
  | place typed _ ih => rwa [proves_place typed]

theorem Clean.argument {name : TyName} {args : List Term} (clean : s.Clean (.ty (.named name args)))
    (member : t ∈ args) (bare : t.Bare) : s.Clean t := by
  have part : s.NeverFree t :=
    NeverFree.part clean (Term.hasNever_of_mem member) (Term.leases_subset_all member)
  cases t with
  | place _ => exact bare.elim
  | _ => exact part

def SplitsPlaces (s : Session) (env : Env) (p : Predicate) (ps : List Place) : Prop :=
  ∀ place ∈ ps, (p = .move → s.Clean (.place place)) →
    s.Proves env p (.place place) ∨ s.Refutes env p (.place place)

theorem SplitsPlaces.subset {ps qs : List Place} (splits : s.SplitsPlaces env p qs) (within : ps ⊆ qs) :
    s.SplitsPlaces env p ps := fun place member => splits place (within member)

theorem some_or_all {A B C D : Prop} (first : A ∨ B) (second : C ∨ D) : (A ∨ C) ∨ B ∧ D := by
  rcases first with h | h
  · exact .inl (.inl h)
  · exact second.imp .inr fun h' => ⟨h, h'⟩

theorem perm_proves_or_refutes (depends : p = .copy ∨ p = .move) {q : Perm} (definite : q.Definite)
    (clean : p = .move → s.Clean (.perm q)) (splits : s.SplitsPlaces env p q.leases) :
    s.Proves env p (.perm q) ∨ s.Refutes env p (.perm q) := by
  induction q with
  | my => cases holds : p.ofMy <;> simp [holds]
  | our => cases holds : p.ofOur <;> simp [holds]
  | shared ps => cases holds : p.ofShared <;> simp [holds]
  | leased ps =>
    by_cases refuted : ∃ place ∈ ps, s.Refutes env p (.place place)
    · exact .inr (refutes_leased.mpr refuted)
    · refine .inl ((proves_leased depends).mpr fun place member => ?_)
      exact (splits place member fun h => (clean h).leased member).resolve_right fun h =>
        refuted ⟨place, member, h⟩
  | apply l r left right =>
    have first := left definite.1 (fun h => (clean h).left) (splits.subset (List.subset_append_left _ _))
    have second := right definite.2 (fun h => (clean h).right) (splits.subset (List.subset_append_right _ _))
    cases way : p.isDisjunctive with
    | true =>
      rw [proves_apply_either way, refutes_apply_both way]
      exact some_or_all first second
    | false =>
      rw [proves_apply_both way, refutes_apply_either way]
      exact (some_or_all first.symm second.symm).symm
  | var v => cases assumed : env.assumes v p <;> simp [assumed]
  | infer | error => exact definite.elim

mutual
theorem ty_proves_or_refutes (depends : p = .copy ∨ p = .move) (t : Ty) (bare : t.Bare)
    (clean : p = .move → s.Clean (.ty t)) (splits : s.SplitsPlaces env p t.leases) :
    s.Proves env p (.ty t) ∨ s.Refutes env p (.ty t) := by
  match t with
  | .perm q t =>
    have perm := perm_proves_or_refutes depends bare.1 (fun h => (clean h).perm)
      (splits.subset (List.subset_append_left _ _))
    have ty := ty_proves_or_refutes depends t bare.2 (fun h => (clean h).ty)
      (splits.subset (List.subset_append_right _ _))
    cases way : p.isDisjunctive with
    | true =>
      rw [proves_perm_either way, refutes_perm_both way]
      exact some_or_all perm ty
    | false =>
      rw [proves_perm_both way, refutes_perm_either way]
      exact (some_or_all perm.symm ty.symm).symm
  | .named name args =>
    have each := terms_prove_or_refute depends args bare
      (fun h t member bare => (clean h).argument member bare) splits
    rw [proves_named, refutes_named]
    cases rule : p.ofNamed name with
    | always => exact .inl trivial
    | never => exact .inr trivial
    | someArgument =>
      by_cases some_ : ∃ t ∈ args, s.Proves env p t
      · exact .inl some_
      · exact .inr fun t member => (each t member).resolve_left fun h => some_ ⟨t, member, h⟩
    | everyArgument =>
      by_cases some_ : ∃ t ∈ args, s.Refutes env p t
      · exact .inr some_
      · exact .inl fun t member => (each t member).resolve_right fun h => some_ ⟨t, member, h⟩
  | .var v => cases assumed : env.assumes v p <;> simp [assumed]
  | .never =>
    rcases depends with rfl | rfl
    · exact .inl (.never rfl)
    · exact (not_clean_never (clean rfl)).elim

theorem terms_prove_or_refute (depends : p = .copy ∨ p = .move) (ts : List Term) (bare : Term.AllBare ts)
    (clean : p = .move → ∀ t ∈ ts, t.Bare → s.Clean t) (splits : s.SplitsPlaces env p (Term.leasesAll ts)) :
    ∀ t ∈ ts, s.Proves env p t ∨ s.Refutes env p t := by
  match ts with
  | [] => simp
  | t :: ts =>
    have rest := terms_prove_or_refute depends ts bare.2
      (fun h u member => clean h u (List.mem_cons_of_mem _ member)) (splits.subset (List.subset_append_right _ _))
    refine List.forall_mem_cons.mpr ⟨?_, rest⟩
    have clean := fun h => clean h t List.mem_cons_self bare.1
    have splits := splits.subset (List.subset_append_left _ _)
    match t with
    | .ty t => exact ty_proves_or_refutes depends t bare.1 clean splits
    | .perm q => exact perm_proves_or_refutes depends bare.1 clean splits
end

theorem BarePlaces.splits {places : List Place} (types : s.BarePlaces places)
    (depends : p = .copy ∨ p = .move) : s.SplitsPlaces env p places := by
  refine types.induction fun place _ t typed bare _ leased clean => ?_
  rw [proves_place typed, refutes_place typed]
  exact ty_proves_or_refutes depends t bare (fun h => clean h t typed) leased

theorem refutes_iff_not_proves {places : List Place} (types : s.BarePlaces places) (bare : t.Bare)
    (within : t.leases ⊆ places) (depends : p = .copy ∨ p = .move) (clean : p = .move → s.Clean t) :
    s.Refutes env p t ↔ ¬ s.Proves env p t := by
  have splits : s.SplitsPlaces env p t.leases := (types.splits depends).subset within
  have decided : s.Proves env p t ∨ s.Refutes env p t := by
    cases t with
    | ty t => exact ty_proves_or_refutes depends t bare clean splits
    | perm q => exact perm_proves_or_refutes depends bare clean splits
    | place _ | error _ => exact bare.elim
  exact ⟨fun refutes => refutes.not_proves depends, decided.resolve_left⟩

theorem Proves.not_lent (owned : s.Proves env .owned t)
    (apart : ∀ v, ¬ (env.assumes v .owned = true ∧ env.assumes v .lent = true)) : ¬ s.Proves env .lent t := by
  induction owned with
  | tyBoth _ _ _ perm ty => simp [proves_perm_either (p := .lent) rfl, perm, ty]
  | arguments _ _ ih =>
    rw [proves_named]
    rintro ⟨t, member, lent⟩
    exact ih t member lent
  | tyVar assumed | permVar assumed => simpa using fun lent => apart _ ⟨assumed, lent⟩
  | never => simp [Predicate.ofNever]
  | my => simp [Predicate.ofMy]
  | our => simp [Predicate.ofOur]
  | permBoth _ _ _ left right => simp [proves_apply_either (p := .lent) rfl, left, right]
  | place typed _ ih => rwa [proves_place typed]
  | permOf either | tyOf either | left either | right either => cases either
  | always rule | argument rule => cases rule
  | shared holds => cases holds
  | leased depends => simp at depends
  | lent lent => cases lent

theorem perm_owned_iff {q : Perm} (definite : q.Definite) (closed : q.hasVariable = false) :
    s.Proves env .owned (.perm q) ↔ ¬ s.Proves env .lent (.perm q) := by
  induction q with
  | my => simp [Predicate.ofMy]
  | our => simp [Predicate.ofOur]
  | shared ps => simp [Predicate.ofShared]
  | leased ps => simp [not_proves_owned, proves_lent]
  | apply l r left right =>
    rw [Perm.hasVariable, Bool.or_eq_false_iff] at closed
    rw [proves_apply_both (p := .owned) rfl, proves_apply_either (p := .lent) rfl, left definite.1 closed.1,
      right definite.2 closed.2, not_or]
  | var v => cases closed
  | infer | error => exact definite.elim

mutual
theorem ty_owned_iff (t : Ty) (bare : t.Bare) (closed : t.hasVariable = false) :
    s.Proves env .owned (.ty t) ↔ ¬ s.Proves env .lent (.ty t) := by
  match t with
  | .perm q t =>
    rw [Ty.hasVariable, Bool.or_eq_false_iff] at closed
    rw [proves_perm_both (p := .owned) rfl, proves_perm_either (p := .lent) rfl,
      perm_owned_iff bare.1 closed.1, ty_owned_iff t bare.2 closed.2, not_or]
  | .named name args =>
    have each := terms_owned_iff args bare closed
    rw [proves_named, proves_named]
    simp only [Predicate.ofNamed, not_exists, not_and]
    exact forall₂_congr each
  | .never => simp [Predicate.ofNever]

theorem terms_owned_iff (ts : List Term) (bare : Term.AllBare ts) (closed : Term.anyHasVariable ts = false) :
    ∀ t ∈ ts, s.Proves env .owned t ↔ ¬ s.Proves env .lent t := by
  match ts with
  | [] => simp
  | .ty t :: ts =>
    rw [Term.anyHasVariable, Bool.or_eq_false_iff] at closed
    exact List.forall_mem_cons.mpr ⟨ty_owned_iff t bare.1 closed.1, terms_owned_iff ts bare.2 closed.2⟩
  | .perm q :: ts =>
    rw [Term.anyHasVariable, Bool.or_eq_false_iff] at closed
    exact List.forall_mem_cons.mpr ⟨perm_owned_iff bare.1 closed.1, terms_owned_iff ts bare.2 closed.2⟩
end

theorem owned_iff_not_lent (bare : t.Bare) (closed : t.hasVariable = false) :
    s.Proves env .owned t ↔ ¬ s.Proves env .lent t :=
  terms_owned_iff [t] ⟨bare, trivial⟩ (by simp [Term.anyHasVariable, closed]) t (List.mem_singleton_self t)

end Complements

end Session

end Ownership
