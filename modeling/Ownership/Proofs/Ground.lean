import Mathlib.Data.Set.Finite.Basic
import Mathlib.Logic.Relation
import Mathlib.Order.WellFoundedSet
import Ownership.Chain
import Ownership.Rules.Predicates

namespace Ownership

open Relation (TransGen)

namespace Place

theorem covers_self (p : Place) : p.covers p = true := by cases p <;> simp [covers]

theorem covers_trans {p q r : Place} (first : p.covers q = true) (second : q.covers r = true) : p.covers r = true := by
  induction r with
  | field base f ih =>
    simp only [covers, Bool.or_eq_true, beq_iff_eq] at second ⊢
    rcases second with rfl | second
    · simpa only [covers, Bool.or_eq_true, beq_iff_eq] using first
    · exact .inr (ih second)
  | _ =>
    simp only [covers, beq_iff_eq] at second
    exact second ▸ first

end Place

namespace Lien

theorem sub_self (l : Lien) : l.sub l = true := by
  cases l <;> simp [sub, placesCovered]
  all_goals exact fun p member => ⟨p, member, p.covers_self⟩

theorem placesCovered_trans {ps qs rs : List Place} (first : placesCovered ps qs = true)
    (second : placesCovered qs rs = true) : placesCovered ps rs = true := by
  simp only [placesCovered, List.all_eq_true, List.any_eq_true] at *
  intro p member
  obtain ⟨q, listed, covers⟩ := first p member
  obtain ⟨r, listed', covers'⟩ := second q listed
  exact ⟨r, listed', Place.covers_trans covers' covers⟩

theorem sub_trans {l m n : Lien} (first : l.sub m = true) (second : m.sub n = true) : l.sub n = true := by
  cases l <;> cases m <;> simp only [sub, Bool.false_eq_true] at first <;>
    cases n <;> simp only [sub, Bool.false_eq_true, decide_eq_true_eq] at first second ⊢
  case shared.shared.shared => exact placesCovered_trans first second
  case leased.leased.leased => exact placesCovered_trans first second
  case var.var.var => exact first.trans second
  case infer.infer.infer => exact first.trans second

def isCopy : Lien → Bool
  | our => true
  | shared _ => true
  | _ => false

end Lien

namespace Chain

def Proper (c : Chain) : Prop := ∀ l ∈ c.tail, l.isCopy = false

theorem proper_nil : Proper [] := nofun

variable {c : Chain}

theorem Proper.tail {l : Lien} (proper : Proper (l :: c)) : c.Proper :=
  fun m member => proper m (List.mem_of_mem_tail member)

theorem Proper.snoc {l : Lien} (proper : c.Proper) (moves : l.isCopy = false) : Proper (c ++ [l]) := by
  intro m member
  cases c with
  | nil => cases member
  | cons first rest =>
    rcases List.mem_append.mp member with old | new
    · exact proper m old
    · rw [List.mem_singleton.mp new, moves]

theorem proper_push {d : Chain} {p : Perm} (proper : c.Proper) (pushed : c.push p = .ok d) : d.Proper := by
  cases p <;> simp only [push, Except.ok.injEq, reduceCtorEq] at pushed <;> subst pushed
  case my => exact proper
  case our => exact nofun
  case shared => exact nofun
  case apply => exact proper
  all_goals exact proper.snoc rfl

theorem foldlM_induction {P : Chain → Prop} {d : Chain} {leaves : List Perm}
    (step : ∀ p ∈ leaves, ∀ c d, P c → push c p = .ok d → P d) (start : P c)
    (folded : leaves.foldlM push c = .ok d) : P d := by
  induction leaves generalizing c with
  | nil =>
    cases folded
    exact start
  | cons p leaves ih =>
    rw [List.foldlM_cons] at folded
    cases pushed : push c p with
    | error r =>
      rw [pushed] at folded
      cases folded
    | ok c' =>
      rw [pushed] at folded
      exact ih (fun q member => step q (List.mem_cons_of_mem _ member))
        (step p List.mem_cons_self c c' start pushed) folded

theorem proper_ofPerm {p : Perm} (found : ofPerm p = .ok c) : c.Proper :=
  foldlM_induction (fun _ _ _ _ => proper_push) proper_nil found

theorem sub_self (c : Chain) : c.sub c = true := by
  induction c with
  | nil => rfl
  | cons l c ih => simp [sub, l.sub_self, ih]

theorem eq_nil_of_sub (below : sub [] c = true) (moves : ∀ l ∈ c, l.isCopy = false) : c = [] := by
  match c, below with
  | [], _ => rfl
  | [.our], _ => exact nomatch moves .our (List.mem_singleton_self _)
  | [.shared places], _ => exact nomatch moves (.shared places) (List.mem_singleton_self _)

theorem sub_trans {d e : Chain} (hd : d.Proper) (he : e.Proper) (first : c.sub d = true)
    (second : d.sub e = true) : c.sub e = true := by
  induction d generalizing c e with
  | nil =>
    cases c with
    | nil => exact second
    | cons l c => simp [sub] at first
  | cons m d ih =>
    cases e with
    | nil => simp [sub] at second
    | cons n e =>
      simp only [sub, Bool.and_eq_true] at second
      cases c with
      | nil =>
        -- `my` is below a single copy lien, which is below another one only
        have alone : d = [] := by
          match m, d, first with
          | .our, [], _ | .shared _, [], _ => rfl
        subst alone
        have single : e = [] := eq_nil_of_sub second.2 he
        subst single
        cases m <;> cases n <;> simp_all [sub, Lien.sub]
      | cons l c =>
        simp only [sub, Bool.and_eq_true] at first ⊢
        exact ⟨Lien.sub_trans first.1 second.1, ih hd.tail he.tail first.2 second.2⟩

end Chain

namespace Perm

def Definite : Perm → Prop
  | apply l r => l.Definite ∧ r.Definite
  | infer _ => False
  | error _ => False
  | _ => True

def leases : Perm → List Place
  | leased places => places
  | apply l r => l.leases ++ r.leases
  | _ => []

end Perm

mutual
def Ty.Definite (arity : TyName → List Kind) : Ty → Prop
  | .perm p t => p.Definite ∧ t.Definite arity
  | .named name args => Term.AllDefinite arity (arity name) args
  | .infer _ => False
  | .var _ => True
  | .never => True
  | .error _ => False

def Term.Definite (arity : TyName → List Kind) : Kind → Term → Prop
  | .type, .ty t => t.Definite arity
  | .perm, .perm p => p.Definite
  | _, _ => False

def Term.AllDefinite (arity : TyName → List Kind) : List Kind → List Term → Prop
  | [], [] => True
  | k :: ks, t :: ts => t.Definite arity k ∧ Term.AllDefinite arity ks ts
  | _, _ => False
end

mutual
def Ty.Bare : Ty → Prop
  | .perm p t => p.Definite ∧ t.Bare
  | .named _ args => Term.AllBare args
  | .infer _ => False
  | .var _ => True
  | .never => True
  | .error _ => False

def Term.Bare : Term → Prop
  | .ty t => t.Bare
  | .perm p => p.Definite
  | .place _ => False
  | .error _ => False

def Term.AllBare : List Term → Prop
  | [] => True
  | t :: ts => t.Bare ∧ Term.AllBare ts
end

mutual
theorem Ty.Definite.bare {arity : TyName → List Kind} : {t : Ty} → t.Definite arity → t.Bare
  | .perm _ _, definite => ⟨definite.1, Ty.Definite.bare definite.2⟩
  | .named _ _, definite => Term.AllDefinite.bare definite
  | .var _, _ | .never, _ => trivial

theorem Term.Definite.bare {arity : TyName → List Kind} : {k : Kind} → {t : Term} → t.Definite arity k → t.Bare
  | .type, .ty _, definite => Ty.Definite.bare definite
  | .perm, .perm _, definite => definite
  | .place, t, definite => by cases t <;> exact definite.elim

theorem Term.AllDefinite.bare {arity : TyName → List Kind} : {ks : List Kind} → {ts : List Term} →
    Term.AllDefinite arity ks ts → Term.AllBare ts
  | [], [], _ => trivial
  | _ :: _, _ :: _, definite => ⟨Term.Definite.bare definite.1, Term.AllDefinite.bare definite.2⟩
end

mutual
def Ty.leases : Ty → List Place
  | .perm p t => p.leases ++ t.leases
  | .named _ args => Term.leasesAll args
  | _ => []

def Term.leases : Term → List Place
  | .ty t => t.leases
  | .perm p => p.leases
  | _ => []

def Term.leasesAll : List Term → List Place
  | [] => []
  | t :: ts => t.leases ++ Term.leasesAll ts
end

namespace Session

def fieldTy? (s : Session) (owner : Ty) (f : Field) : Option Ty :=
  match owner.head with
  | .named (.aggregate a) args =>
    if a = f.owner then
      (Rules.declaredFieldTy s.program f args).toOption.map owner.red.perm.applyTo
    else none
  | _ => none

def placeTy? (s : Session) : Place → Option Ty
  | .var v => s.variableTys.lookup v
  | .field base f => (s.placeTy? base).bind fun owner => s.fieldTy? owner f
  | _ => none

theorem fieldTy?_eq_some_iff {s : Session} {owner t : Ty} {f : Field} : s.fieldTy? owner f = some t ↔ ∃ args ty u,
    owner.head = .named (.aggregate f.owner) args ∧ s.program.fieldTy f = some ty ∧
      f.owner.generics.length = args.length ∧ ty.subst ⟨f.owner.generics.zip args⟩ = .ok u ∧
      owner.red.perm.applyTo u = t := by
  unfold fieldTy? Rules.declaredFieldTy Substitution.ofLists
  constructor
  · intro found
    split at found
    · rename_i a args head
      split at found
      · rename_i own
        obtain ⟨u, declared, rfl⟩ := Option.map_eq_some_iff.mp found
        cases known : s.program.fieldTy f with
        | none => simp [known, throw, throwThe, MonadExceptOf.throw, Except.toOption] at declared
        | some ty =>
          rw [known] at declared
          dsimp only at declared
          split at declared
          · rename_i arity
            refine ⟨args, ty, u, own ▸ head, rfl, arity, ?_, rfl⟩
            cases replaced : ty.subst ⟨f.owner.generics.zip args⟩ <;>
              simp_all [Except.toOption, bind, Except.bind]
          · simp [Except.toOption, bind, Except.bind] at declared
      · cases found
    · cases found
  · rintro ⟨args, ty, u, head, known, arity, replaced, rfl⟩
    simp [head, known, arity, replaced, Except.toOption, bind, Except.bind]

def Lends (s : Session) (q p : Place) : Prop := ∃ t, s.placeTy? p = some t ∧ q ∈ t.leases

/-- The session gives the places definite types, which lease from these places only, and no place in
the end from itself. -/
structure TypesPlaces (s : Session) (arity : TyName → List Kind) (places : List Place) : Prop where
  typed : ∀ p ∈ places, ∃ t, s.placeTy? p = some t ∧ t.Definite arity ∧ t.leases ⊆ places
  acyclic : ∀ p ∈ places, ¬ TransGen s.Lends p p

structure BarePlaces (s : Session) (places : List Place) : Prop where
  typed : ∀ p ∈ places, ∃ t, s.placeTy? p = some t ∧ t.Bare ∧ t.leases ⊆ places
  acyclic : ∀ p ∈ places, ¬ TransGen s.Lends p p

theorem TypesPlaces.bare {s : Session} {arity : TyName → List Kind} {places : List Place}
    (types : s.TypesPlaces arity places) : s.BarePlaces places where
  typed p member := by
    obtain ⟨t, typed, definite, within⟩ := types.typed p member
    exact ⟨t, typed, definite.bare, within⟩
  acyclic := types.acyclic

inductive Proves (s : Session) (env : Env) (p : Predicate) : Term → Prop where
  | permOf {q : Perm} {t : Ty} : p.isDisjunctive = true → Proves s env p (.perm q) →
    Proves s env p (.ty (.perm q t))
  | tyOf {q : Perm} {t : Ty} : p.isDisjunctive = true → Proves s env p (.ty t) →
    Proves s env p (.ty (.perm q t))
  | tyBoth {q : Perm} {t : Ty} : p.isDisjunctive = false → Proves s env p (.perm q) →
    Proves s env p (.ty t) → Proves s env p (.ty (.perm q t))
  | always {name : TyName} {args : List Term} : p.ofNamed name = .always →
    Proves s env p (.ty (.named name args))
  | argument {name : TyName} {args : List Term} {t : Term} : p.ofNamed name = .someArgument →
    t ∈ args → Proves s env p t → Proves s env p (.ty (.named name args))
  | arguments {name : TyName} {args : List Term} : p.ofNamed name = .everyArgument →
    (∀ t ∈ args, Proves s env p t) → Proves s env p (.ty (.named name args))
  | tyVar {v : Variable} : env.assumes v p = true → Proves s env p (.ty (.var v))
  | never : p.ofNever = true → Proves s env p (.ty .never)
  | my : p.ofMy = true → Proves s env p (.perm .my)
  | our : p.ofOur = true → Proves s env p (.perm .our)
  | shared {places : List Place} : p.ofShared = true → Proves s env p (.perm (.shared places))
  | leased {places : List Place} : p = .copy ∨ p = .move →
    (∀ place ∈ places, Proves s env p (.place place)) → Proves s env p (.perm (.leased places))
  | lent {places : List Place} : p = .lent → Proves s env p (.perm (.leased places))
  | left {l r : Perm} : p.isDisjunctive = true → Proves s env p (.perm l) →
    Proves s env p (.perm (.apply l r))
  | right {l r : Perm} : p.isDisjunctive = true → Proves s env p (.perm r) →
    Proves s env p (.perm (.apply l r))
  | permBoth {l r : Perm} : p.isDisjunctive = false → Proves s env p (.perm l) →
    Proves s env p (.perm r) → Proves s env p (.perm (.apply l r))
  | permVar {v : Variable} : env.assumes v p = true → Proves s env p (.perm (.var v))
  | place {place : Place} {t : Ty} : s.placeTy? place = some t → Proves s env p (.ty t) →
    Proves s env p (.place place)

section Proving

variable {s : Session} {env : Env} {p : Predicate}

@[simp] theorem proves_my : s.Proves env p (.perm .my) ↔ p.ofMy = true :=
  ⟨fun h => by cases h; assumption, .my⟩

@[simp] theorem proves_our : s.Proves env p (.perm .our) ↔ p.ofOur = true :=
  ⟨fun h => by cases h; assumption, .our⟩

variable {places : List Place}

@[simp] theorem proves_shared : s.Proves env p (.perm (.shared places)) ↔ p.ofShared = true :=
  ⟨fun h => by cases h; assumption, .shared⟩

theorem proves_leased (depends : p = .copy ∨ p = .move) :
    s.Proves env p (.perm (.leased places)) ↔ ∀ place ∈ places, s.Proves env p (.place place) := by
  refine ⟨fun h => ?_, .leased depends⟩
  cases h with
  | leased _ all => exact all
  | lent lent => exact absurd depends (by simp [lent])

theorem proves_lent : s.Proves env .lent (.perm (.leased places)) := .lent rfl

theorem not_proves_owned : ¬ s.Proves env .owned (.perm (.leased places)) :=
  fun h => by cases h <;> simp_all

theorem proves_apply_either {l r : Perm} (either : p.isDisjunctive = true) :
    s.Proves env p (.perm (.apply l r)) ↔ s.Proves env p (.perm l) ∨ s.Proves env p (.perm r) := by
  refine ⟨fun h => ?_, fun h => h.elim (.left either) (.right either)⟩
  cases h with
  | left _ h => exact .inl h
  | right _ h => exact .inr h
  | permBoth both => simp [either] at both

theorem proves_apply_both {l r : Perm} (both : p.isDisjunctive = false) :
    s.Proves env p (.perm (.apply l r)) ↔ s.Proves env p (.perm l) ∧ s.Proves env p (.perm r) := by
  refine ⟨fun h => ?_, fun h => .permBoth both h.1 h.2⟩
  cases h with
  | left either | right either => simp [both] at either
  | permBoth _ l r => exact ⟨l, r⟩

@[simp] theorem proves_permVar {v : Variable} : s.Proves env p (.perm (.var v)) ↔ env.assumes v p = true :=
  ⟨fun h => by cases h; assumption, .permVar⟩

theorem proves_perm_either {q : Perm} {t : Ty} (either : p.isDisjunctive = true) :
    s.Proves env p (.ty (.perm q t)) ↔ s.Proves env p (.perm q) ∨ s.Proves env p (.ty t) := by
  refine ⟨fun h => ?_, fun h => h.elim (.permOf either) (.tyOf either)⟩
  cases h with
  | permOf _ h => exact .inl h
  | tyOf _ h => exact .inr h
  | tyBoth both => simp [either] at both

theorem proves_perm_both {q : Perm} {t : Ty} (both : p.isDisjunctive = false) :
    s.Proves env p (.ty (.perm q t)) ↔ s.Proves env p (.perm q) ∧ s.Proves env p (.ty t) := by
  refine ⟨fun h => ?_, fun h => .tyBoth both h.1 h.2⟩
  cases h with
  | permOf either | tyOf either => simp [both] at either
  | tyBoth _ q t => exact ⟨q, t⟩

theorem proves_named {name : TyName} {args : List Term} :
    s.Proves env p (.ty (.named name args)) ↔ match p.ofNamed name with
      | .always => True
      | .never => False
      | .someArgument => ∃ t ∈ args, s.Proves env p t
      | .everyArgument => ∀ t ∈ args, s.Proves env p t := by
  cases rule : p.ofNamed name
  · exact ⟨fun _ => trivial, fun _ => .always rule⟩
  · exact ⟨fun h => by cases h <;> simp_all, False.elim⟩
  · refine ⟨fun h => ?_, fun ⟨t, member, h⟩ => .argument rule member h⟩
    cases h with
    | argument _ member h => exact ⟨_, member, h⟩
    | always other | arguments other => simp [rule] at other
  · refine ⟨fun h => ?_, .arguments rule⟩
    cases h with
    | arguments _ h => exact h
    | always other | argument other => simp [rule] at other

@[simp] theorem proves_tyVar {v : Variable} : s.Proves env p (.ty (.var v)) ↔ env.assumes v p = true :=
  ⟨fun h => by cases h; assumption, .tyVar⟩

@[simp] theorem proves_never : s.Proves env p (.ty .never) ↔ p.ofNever = true :=
  ⟨fun h => by cases h; assumption, .never⟩

theorem proves_place {place : Place} {t : Ty} (typed : s.placeTy? place = some t) :
    s.Proves env p (.place place) ↔ s.Proves env p (.ty t) := by
  refine ⟨fun h => ?_, .place typed⟩
  cases h with
  | place typed' h =>
    rw [typed] at typed'
    cases typed'
    exact h

end Proving

end Session

def Perm.Below (p q : Perm) : Prop :=
  ∃ c d, Chain.ofPerm p = .ok c ∧ Chain.ofPerm q = .ok d ∧ c.sub d = true

open Classical in
/-- The permission on the head of a type, as far as it matters: on a copy head it does not. -/
noncomputable def Ty.effective (s : Session) (env : Env) (t : Ty) : Perm :=
  if s.Proves env .copy (.ty t.head.toTy) then .my else t.red.perm

inductive Session.Below (s : Session) (env : Env) : Term → Term → Prop where
  | never {t u : Ty} : t.head = .never → Below s env (.ty t) (.ty u)
  | named {t u : Ty} {name : TyName} {as bs : List Term} : t.head = .named name as →
    u.head = .named name bs → (t.effective s env).Below (u.effective s env) →
    as.length = bs.length → (∀ pair ∈ as.zip bs, Below s env pair.1 pair.2) →
    Below s env (.ty t) (.ty u)
  | var {t u : Ty} {v : Variable} : t.head = .var v → u.head = .var v →
    (t.effective s env).Below (u.effective s env) → Below s env (.ty t) (.ty u)
  | perm {p q : Perm} : p.Below q → Below s env (.perm p) (.perm q)

def Session.HeadsBelow (s : Session) (env : Env) : Head → Head → Prop
  | .named n as, .named m bs =>
    n = m ∧ as.length = bs.length ∧ ∀ pair ∈ as.zip bs, s.Below env pair.1 pair.2
  | .var v, .var w => v = w
  | _, _ => False

variable {s : Session} {p q : Perm} {arity : TyName → List Kind}

theorem Session.HeadsBelow.ne_never {env : Env} {l u : Head} (below : s.HeadsBelow env l u) : u ≠ .never := by
  rintro rfl
  cases l <;> exact below

theorem Session.below_ty {env : Env} {t u : Ty} : s.Below env (.ty t) (.ty u) ↔
    t.head = .never ∨
      (t.effective s env).Below (u.effective s env) ∧ s.HeadsBelow env t.head u.head := by
  constructor
  · intro below
    cases below with
    | never head => exact .inl head
    | named lower upper perms length args =>
      rw [lower, upper]
      exact .inr ⟨perms, rfl, length, args⟩
    | var lower upper perms =>
      rw [lower, upper]
      exact .inr ⟨perms, rfl⟩
  · rintro (head | ⟨perms, heads⟩)
    · exact .never head
    · match lower : t.head, upper : u.head, heads with
      | .named n as, .named _ bs, ⟨rfl, length, args⟩ => exact .named lower upper perms length args
      | .var v, .var _, rfl => exact .var lower upper perms

theorem Session.below_perm {env : Env} : s.Below env (.perm p) (.perm q) ↔ p.Below q :=
  ⟨fun below => by cases below; assumption, .perm⟩

theorem Session.lends_induction {places : List Place} {P : Place → Prop}
    (acyclic : ∀ p ∈ places, ¬ TransGen s.Lends p p)
    (step : ∀ p ∈ places, (∀ q ∈ places, s.Lends q p → P q) → P p) : ∀ p ∈ places, P p := by
  have order : IsStrictOrder Place fun q p => TransGen s.Lends q p ∧ p ∈ places :=
    { irrefl := fun p below => acyclic p below.2 below.1
      trans := fun _ _ _ first second => ⟨first.1.trans second.1, second.2⟩ }
  have founded : Set.WellFoundedOn { p | p ∈ places } fun q p => TransGen s.Lends q p ∧ p ∈ places :=
    Set.Finite.wellFoundedOn (List.finite_toSet places)
  intro p member
  refine founded.induction (P := P) member fun p member ih => ?_
  exact step p member fun q listed lends => ih q listed ⟨.single lends, member⟩

theorem Session.BarePlaces.induction {places : List Place} {P : Place → Prop} (bare : s.BarePlaces places)
    (step : ∀ p ∈ places, ∀ t, s.placeTy? p = some t → t.Bare → t.leases ⊆ places → (∀ q ∈ t.leases, P q) → P p) :
    ∀ p ∈ places, P p := by
  refine lends_induction bare.acyclic fun p member ih => ?_
  obtain ⟨t, typed, bare, within⟩ := bare.typed p member
  exact step p member t typed bare within fun q leased => ih q (within leased) ⟨t, typed, leased⟩

namespace Ty

theorem sizeOf_argument {u : Ty} {name : TyName} {args : List Term} (member : .ty u ∈ args) :
    (t : Ty) → t.head = .named name args → sizeOf u < sizeOf t
  | .perm p t, head => by
    have smaller := sizeOf_argument member t head
    simp only [Ty.perm.sizeOf_spec]
    omega
  | .named _ _, rfl => by
    have smaller := List.sizeOf_lt_of_mem member
    simp only [Term.ty.sizeOf_spec, Ty.named.sizeOf_spec] at *
    omega

theorem head_induction {P : Ty → Prop} (step : ∀ t : Ty,
    (∀ name args u, t.head = .named name args → .ty u ∈ args → P u) → P t) (t : Ty) : P t := by
  induction size : sizeOf t using Nat.strong_induction_on generalizing t with
  | h n ih =>
    exact step t fun name args u head member => ih _ (size ▸ sizeOf_argument member t head) u rfl

theorem Definite.head : {t : Ty} → t.Definite arity →
    (∃ name args, t.head = .named name args ∧ Term.AllDefinite arity (arity name) args) ∨
      (∃ v, t.head = .var v) ∨ t.head = .never
  | .perm _ _, definite => definite.2.head
  | .named name args, definite => .inl ⟨name, args, rfl, definite⟩
  | .var v, _ => .inr (.inl ⟨v, rfl⟩)
  | .never, _ => .inr (.inr rfl)

end Ty

theorem Perm.Definite.compose (outer : p.Definite) (inner : q.Definite) : (p.compose q).Definite := by
  unfold Perm.compose
  split
  · exact inner
  · exact outer
  · exact ⟨outer, inner⟩

theorem Ty.Definite.perm : {t : Ty} → t.Definite arity →
    t.red.perm.Definite
  | .perm _ _, definite => definite.1.compose definite.2.perm
  | .named _ _, _ | .var _, _ | .never, _ => trivial

theorem Ty.Definite.toTy : {t : Ty} → t.Definite arity →
    t.head.toTy.Definite arity
  | .perm _ _, definite => definite.2.toTy
  | .named _ _, definite => definite
  | .var _, _ | .never, _ => trivial

theorem Perm.leases_compose (p q : Perm) : (p.compose q).leases ⊆ p.leases ++ q.leases := by
  unfold Perm.compose
  split
  · exact List.subset_append_right _ _
  · exact List.subset_append_left _ _
  · exact List.Subset.refl _

theorem Ty.leases_perm : (t : Ty) → t.red.perm.leases ⊆ t.leases
  | .perm p t => fun _ member =>
    (List.mem_append.mp (p.leases_compose t.red.perm member)).elim
      (fun h => List.mem_append_left _ h) fun h => List.mem_append_right _ (t.leases_perm h)
  | .named _ _ | .infer _ | .var _ | .never | .error _ => List.nil_subset _

theorem Ty.leases_head : (t : Ty) → t.head.toTy.leases ⊆ t.leases
  | .perm _ t => fun _ member => List.mem_append_right _ (t.leases_head member)
  | .named _ _ | .infer _ | .var _ | .never | .error _ => List.Subset.refl _

theorem Head.head_toTy (h : Head) : h.toTy.head = h := by cases h <;> rfl

theorem Term.Definite.cases {k : Kind} {t : Term} (definite : t.Definite arity k) :
    (∃ u, t = .ty u ∧ k = .type ∧ u.Definite arity) ∨ ∃ p, t = .perm p ∧ k = .perm ∧ p.Definite := by
  cases k <;> cases t <;> simp_all [Term.Definite]

theorem Term.AllDefinite.length : {ks : List Kind} → {ts : List Term} →
    Term.AllDefinite arity ks ts → ts.length = ks.length
  | [], [], _ => rfl
  | _ :: _, _ :: _, definite => congrArg (· + 1) definite.2.length

theorem Term.AllDefinite.zip : {ks : List Kind} → {ts us : List Term} →
    Term.AllDefinite arity ks ts → Term.AllDefinite arity ks us →
    ∀ pair ∈ ts.zip us, ∃ k, pair.1.Definite arity k ∧ pair.2.Definite arity k
  | [], [], [], _, _, _, member => absurd member List.not_mem_nil
  | _ :: _, _ :: _, _ :: _, lower, upper, pair, member => by
    rcases List.mem_cons.mp member with rfl | member
    · exact ⟨_, lower.1, upper.1⟩
    · exact lower.2.zip upper.2 pair member

theorem Term.leases_subset_all {t : Term} : {ts : List Term} → t ∈ ts →
    t.leases ⊆ Term.leasesAll ts
  | u :: ts, member => by
    rcases List.mem_cons.mp member with rfl | member
    · exact List.subset_append_left _ _
    · exact fun _ h => List.mem_append_right _ (leases_subset_all member h)

namespace Perm

theorem leaves_definite (definite : p.Definite) : ∀ q ∈ p.leaves, ∀ c : Chain, ∃ d, c.push q = .ok d := by
  induction p with
  | apply l r left right =>
    intro q member
    rcases List.mem_append.mp member with member | member
    · exact left definite.1 q member
    · exact right definite.2 q member
  | infer | error => exact definite.elim
  | _ =>
    intro q member c
    rw [List.mem_singleton.mp member]
    exact ⟨_, rfl⟩

end Perm

theorem Chain.foldlM_push {leaves : List Perm} (c : Chain) (pushes : ∀ q ∈ leaves, ∀ c : Chain, ∃ d, c.push q = .ok d) :
    ∃ d, leaves.foldlM push c = .ok d := by
  induction leaves generalizing c with
  | nil => exact ⟨c, rfl⟩
  | cons p leaves ih =>
    obtain ⟨d, pushed⟩ := pushes p List.mem_cons_self c
    obtain ⟨e, folded⟩ := ih d fun q member => pushes q (List.mem_cons_of_mem _ member)
    refine ⟨e, ?_⟩
    rw [List.foldlM_cons, pushed]
    exact folded

theorem Perm.not_infer_of_mem_leaves (definite : p.Definite) (member : q ∈ p.leaves)
    (i : InferIndex) : q ≠ .infer i := by
  induction p with
  | apply l r left right =>
    rcases List.mem_append.mp member with member | member
    · exact left definite.1 member
    · exact right definite.2 member
  | infer | error => exact definite.elim
  | _ =>
    rw [List.mem_singleton.mp member]
    exact nofun

theorem Chain.definite_ofPerm {c : Chain} (definite : p.Definite)
    (found : ofPerm p = .ok c) : ∀ l ∈ c, l.isInfer = false := by
  refine foldlM_induction (P := fun c => ∀ l ∈ c, l.isInfer = false) (fun q leaf c d all pushed => ?_)
    (fun _ member => absurd member List.not_mem_nil) found
  have plain := Perm.not_infer_of_mem_leaves definite leaf
  cases q <;> simp only [push, Except.ok.injEq, reduceCtorEq] at pushed <;> subst pushed
  case infer i => exact (plain i rfl).elim
  case my => exact all
  case apply => exact all
  case our => exact List.forall_mem_singleton.mpr rfl
  case shared => exact List.forall_mem_singleton.mpr rfl
  all_goals exact List.forall_mem_append.mpr ⟨all, List.forall_mem_singleton.mpr rfl⟩

theorem Chain.bareInfer_eq_none {c : Chain} (plain : ∀ l ∈ c, l.isInfer = false) : c.bareInfer = none := by
  unfold bareInfer
  split
  · exact nomatch plain _ (List.mem_singleton_self _)
  · rfl

theorem Chain.hasInfer_eq_false {c : Chain} (plain : ∀ l ∈ c, l.isInfer = false) : c.hasInfer = false := by
  rw [hasInfer, List.any_eq_false]
  exact fun l member => by simp [plain l member]

theorem Chain.ofPerm_definite (definite : p.Definite) : ∃ c, ofPerm p = .ok c :=
  foldlM_push [] (Perm.leaves_definite definite)

theorem Perm.below_self (definite : p.Definite) : p.Below p := by
  obtain ⟨c, found⟩ := Chain.ofPerm_definite definite
  exact ⟨c, c, found, found, c.sub_self⟩

theorem Perm.Below.trans {r : Perm} (first : p.Below q) (second : q.Below r) : p.Below r := by
  obtain ⟨c, d, lower, middle, below⟩ := first
  obtain ⟨d', e, middle', upper, below'⟩ := second
  rw [middle] at middle'
  cases middle'
  exact ⟨c, e, lower, upper,
    Chain.sub_trans (Chain.proper_ofPerm middle) (Chain.proper_ofPerm upper) below below'⟩

section Order

variable {s : Session} {env : Env} {arity : TyName → List Kind}

theorem Ty.Definite.effective {t : Ty} (definite : t.Definite arity) : (t.effective s env).Definite := by
  unfold Ty.effective
  split
  · exact trivial
  · exact definite.perm

theorem fst_eq_snd_of_mem_zip {α : Type} {xs : List α} {pair : α × α} (member : pair ∈ xs.zip xs) :
    pair.1 = pair.2 := by
  induction xs with
  | nil => cases member
  | cons x xs ih =>
    rcases List.mem_cons.mp member with rfl | member
    · rfl
    · exact ih member

theorem mem_zip_middle {α : Type} {xs ys zs : List α} {pair : α × α} (first : xs.length = ys.length)
    (second : ys.length = zs.length) (member : pair ∈ xs.zip zs) :
    ∃ y, (pair.1, y) ∈ xs.zip ys ∧ (y, pair.2) ∈ ys.zip zs := by
  induction xs generalizing ys zs with
  | nil => cases member
  | cons x xs ih =>
    match ys, zs with
    | y :: ys, z :: zs =>
      rcases List.mem_cons.mp member with rfl | member
      · exact ⟨y, List.mem_cons_self, List.mem_cons_self⟩
      · obtain ⟨y, left, right⟩ := ih (Nat.succ.inj first) (Nat.succ.inj second) member
        exact ⟨y, List.mem_cons_of_mem _ left, List.mem_cons_of_mem _ right⟩

namespace Session

theorem below_self_of_arguments {t : Ty} (definite : t.Definite arity)
    (arguments : ∀ name args u, t.head = .named name args → .ty u ∈ args → u.Definite arity →
      s.Below env (.ty u) (.ty u)) : s.Below env (.ty t) (.ty t) := by
  rcases definite.head with ⟨name, args, head, all⟩ | ⟨v, head⟩ | head
  · refine .named head head (Perm.below_self definite.effective) rfl fun pair member => ?_
    obtain ⟨k, lower, _⟩ := all.zip all pair member
    obtain ⟨a, b⟩ := pair
    obtain rfl : a = b := fst_eq_snd_of_mem_zip member
    rcases lower.cases with ⟨u, rfl, _, definite⟩ | ⟨p, rfl, _, definite⟩
    · exact arguments name args u head (List.of_mem_zip member).1 definite
    · exact .perm (Perm.below_self definite)
  · exact .var head head (Perm.below_self definite.effective)
  · exact .never head

theorem below_self (t : Ty) (definite : t.Definite arity) : s.Below env (.ty t) (.ty t) := by
  induction t using Ty.head_induction with
  | step t ih =>
    exact below_self_of_arguments definite fun name args u head member => ih name args u head member

theorem Below.trans {a b c : Term} (first : s.Below env a b) (second : s.Below env b c) : s.Below env a c := by
  induction first generalizing c with
  | never head => cases second <;> exact .never head
  | named head head' perms length _ ih =>
    cases second with
    | never head'' | var head'' => rw [head'] at head''; cases head''
    | named head'' last perms' length' args =>
      rw [head'] at head''
      cases head''
      refine .named head last (perms.trans perms') (length.trans length') fun pair member => ?_
      obtain ⟨b, left, right⟩ := mem_zip_middle length length' member
      exact ih _ left (args _ right)
  | var head head' perms =>
    cases second with
    | never head'' | named head'' => rw [head'] at head''; cases head''
    | var head'' last perms' =>
      rw [head'] at head''
      cases head''
      exact .var head last (perms.trans perms')
  | perm below =>
    cases second with
    | perm below' => exact .perm (below.trans below')

theorem effective_of_copy {t : Ty} (copy : s.Proves env .copy (.ty t.head.toTy)) :
    t.effective s env = .my := if_pos copy

theorem below_of_copy {t u h : Ty} (definite : h.Definite arity) (lower : t.head = h.head) (upper : u.head = h.head)
    (copy : s.Proves env .copy (.ty h.head.toTy)) : s.Below env (.ty t) (.ty u) := by
  have perms : (t.effective s env).Below (u.effective s env) := by
    rw [effective_of_copy (lower ▸ copy), effective_of_copy (upper ▸ copy)]
    exact Perm.below_self trivial
  cases below_self (s := s) h definite with
  | never head => exact .never (lower.trans head)
  | named head head' _ length args =>
    rw [head] at head'
    cases head'
    exact .named (lower.trans head) (upper.trans head) perms rfl args
  | var head _ _ => exact .var (lower.trans head) (upper.trans head) perms

end Session

end Order

end Ownership
