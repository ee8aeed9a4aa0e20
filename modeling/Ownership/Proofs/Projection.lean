import Ownership.Proofs.ChainInstances
import Ownership.Proofs.ChainTests
import Ownership.Proofs.Valuations

namespace Ownership

open Relation (TransGen)

def Term.part : List Nat → Term → Option Term
  | [], t => some t
  | i :: path, .ty t =>
    match t.head with
    | .named _ args => args[i]?.bind (Term.part path)
    | _ => none
  | _ :: _, _ => none

def Session.PermsBelow (s : Session) (env : Env) : Term → Term → Prop
  | .ty t, .ty u => t.head = .never ∨ (t.effective s env).Below (u.effective s env)
  | .perm p, .perm q => p.Below q
  | _, _ => False

/-- At every position of the pattern the permissions on the terms are in order. -/
def Session.InOrder (s : Session) (env : Env) (pattern t u : Term) : Prop :=
  ∀ path, (pattern.part path).isSome = true →
    ∃ a b, t.part path = some a ∧ u.part path = some b ∧ s.PermsBelow env a b

namespace Session

variable {s : Session} {env : Env}

theorem inOrder_of_flat {pattern t u : Term} (flat : ∀ i path, pattern.part (i :: path) = none) :
    s.InOrder env pattern t u ↔ s.PermsBelow env t u := by
  constructor
  · intro ordered
    obtain ⟨_, _, ⟨⟩, ⟨⟩, perms⟩ := ordered [] rfl
    exact perms
  · rintro perms (_ | ⟨i, path⟩) inside
    · exact ⟨t, u, rfl, rfl, perms⟩
    · rw [flat] at inside
      cases inside

theorem inOrder_named {F t u : Ty} {n m k : TyName} {Fs ts us : List Term} (pattern : F.head = .named n Fs)
    (lower : t.head = .named m ts) (upper : u.head = .named k us) :
    s.InOrder env (.ty F) (.ty t) (.ty u) ↔ s.PermsBelow env (.ty t) (.ty u) ∧
      ∀ (i : Nat) A, Fs[i]? = some A → ∃ a b, ts[i]? = some a ∧ us[i]? = some b ∧ s.InOrder env A a b := by
  have step {v : Ty} {name : TyName} {vs : List Term} (head : v.head = .named name vs) (i : Nat) (path : List Nat) :
      (Term.ty v).part (i :: path) = vs[i]?.bind (Term.part path) := by
    simp only [Term.part, head]
  constructor
  · intro ordered
    obtain ⟨_, _, ⟨⟩, ⟨⟩, perms⟩ := ordered [] rfl
    refine ⟨perms, fun i A found => ?_⟩
    obtain ⟨a, b, first, second, _⟩ := ordered [i] (by rw [step pattern, found]; rfl)
    rw [step lower] at first
    rw [step upper] at second
    obtain ⟨a, inside, ⟨⟩⟩ := Option.bind_eq_some_iff.mp first
    obtain ⟨b, inside', ⟨⟩⟩ := Option.bind_eq_some_iff.mp second
    refine ⟨a, b, inside, inside', fun path within => ?_⟩
    have parts := ordered (i :: path) (by rw [step pattern, found]; exact within)
    rwa [step lower, step upper, inside, inside'] at parts
  · rintro ⟨perms, arguments⟩ (_ | ⟨i, path⟩) within
    · exact ⟨_, _, rfl, rfl, perms⟩
    · rw [step pattern] at within
      obtain ⟨part, found⟩ := Option.isSome_iff_exists.mp within
      obtain ⟨A, found, inside⟩ := Option.bind_eq_some_iff.mp found
      obtain ⟨a, b, first, second, ordered⟩ := arguments i A found
      rw [step lower, step upper, first, second]
      exact ordered path (by rw [inside]; rfl)

end Session

def Ty.HeadInstance (σ : Substitution) (F t : Ty) : Prop :=
  match F.head with
  | .named name args => ∃ args', t.head = .named name args' ∧ Term.InstanceAll σ args args'
  | .var v => (∃ w, σ.lookup v = some (.ty w) ∧ t.head = w.head) ∨ σ.lookup v = none ∧ t.head = .var v
  | h => t.head = h

theorem Ty.Instance.headInstance {σ : Substitution} : {F t : Ty} → F.Instance σ t → ∀ u : Ty, u.head = t.head →
    F.HeadInstance σ u
  | .perm _ F, t, ⟨p, t', _, inner, same⟩, u, head => by
    have inside : t.head = t'.head := by rw [Ty.head, Ty.red_of_perm same]
    exact inner.headInstance u (head.trans inside)
  | .named _ _, _, ⟨args', rfl, all⟩, _, head => ⟨args', head, all⟩
  | .var _, t, inst, _, head => by
    rcases inst with found | ⟨missing, rfl⟩
    · exact .inl ⟨t, found, head⟩
    · exact .inr ⟨missing, head⟩
  | .infer _, _, rfl, _, head | .never, _, rfl, _, head | .error _, _, rfl, _, head => head

theorem Term.InstanceAll.getElem? {σ : Substitution} {ts us : List Term} (all : Term.InstanceAll σ ts us) {i : Nat}
    {t u : Term} (first : ts[i]? = some t) (second : us[i]? = some u) : t.Instance σ u := by
  obtain ⟨bound, rfl⟩ := List.getElem?_eq_some_iff.mp first
  obtain ⟨bound', rfl⟩ := List.getElem?_eq_some_iff.mp second
  exact all.forall₂.get bound bound'

theorem Term.AllDefinite.of_mem {arity : TyName → List Kind} {t : Term} : {ks : List Kind} → {ts : List Term} →
    Term.AllDefinite arity ks ts → t ∈ ts → ∃ k, t.Definite arity k
  | [], [], _, member => absurd member List.not_mem_nil
  | _ :: _, _ :: _, definite, member => by
    rcases List.mem_cons.mp member with rfl | member
    · exact ⟨_, definite.1⟩
    · exact definite.2.of_mem member

namespace Session

variable {s : Session} {env : Env} {arity : TyName → List Kind} {σ τ : Substitution}

def SubstsBelow (s : Session) (env : Env) (σ τ : Substitution) : Prop :=
  ∀ v, (σ.lookup v = none ∧ τ.lookup v = none) ∨
    ∃ a b, σ.lookup v = some a ∧ τ.lookup v = some b ∧ s.Below env a b

theorem below_iff_of_heads {t u w w' : Ty} (lower : t.head = w.head) (upper : u.head = w'.head)
    (below : s.Below env (.ty w) (.ty w')) : s.Below env (.ty t) (.ty u) ↔ s.PermsBelow env (.ty t) (.ty u) := by
  rw [below_ty, PermsBelow]
  rcases below_ty.mp below with never | ⟨_, heads⟩
  · simp [lower, never]
  · rw [lower, upper]
    simp [heads]

theorem below_iff_inOrder (below : s.SubstsBelow env σ τ) (F : Ty) (definite : F.Definite arity) {t u : Ty}
    (lower : F.HeadInstance σ t) (upper : F.HeadInstance τ u) :
    s.Below env (.ty t) (.ty u) ↔ s.InOrder env (.ty F) (.ty t) (.ty u) := by
  induction F using Ty.head_induction generalizing t u with
  | step F ih =>
    have flat (plain : ∀ name args, F.head ≠ .named name args) :
        s.InOrder env (.ty F) (.ty t) (.ty u) ↔ s.PermsBelow env (.ty t) (.ty u) := by
      refine inOrder_of_flat fun i path => ?_
      unfold Term.part
      split
      · rename_i name args head
        exact (plain name args head).elim
      · rfl
    unfold Ty.HeadInstance at lower upper
    rcases definite.head with ⟨name, Fs, head, all⟩ | ⟨v, head⟩ | head
    · rw [head] at lower upper
      obtain ⟨ts, lower, instances⟩ := lower
      obtain ⟨us, upper, instances'⟩ := upper
      have size : Fs.length = ts.length := instances.forall₂.length_eq
      have size' : Fs.length = us.length := instances'.forall₂.length_eq
      have argument {i : Nat} {A a b : Term} (found : Fs[i]? = some A) (first : ts[i]? = some a)
          (second : us[i]? = some b) : s.Below env a b ↔ s.InOrder env A a b := by
        have inst := instances.getElem? found first
        have inst' := instances'.getElem? found second
        obtain ⟨k, definite⟩ := all.of_mem (List.mem_of_getElem? found)
        rcases definite.cases with ⟨G, rfl, _, definite⟩ | ⟨q, rfl, _, _⟩
        · obtain ⟨t, rfl, inst⟩ := inst
          obtain ⟨u, rfl, inst'⟩ := inst'
          exact ih name Fs G head (List.mem_of_getElem? found) definite (inst.headInstance t rfl) (inst'.headInstance u rfl)
        · obtain ⟨p, rfl, _⟩ := inst
          obtain ⟨p', rfl, _⟩ := inst'
          rw [below_perm, inOrder_of_flat fun _ _ => rfl]
          rfl
      rw [inOrder_named head lower upper, below_ty, PermsBelow, lower, upper]
      constructor
      · rintro (never | ⟨perms, -, -, arguments⟩)
        · cases never
        · refine ⟨.inr perms, fun i A found => ?_⟩
          obtain ⟨bound, _⟩ := List.getElem?_eq_some_iff.mp found
          obtain ⟨a, first⟩ : ∃ a, ts[i]? = some a := ⟨_, List.getElem?_eq_getElem (size ▸ bound)⟩
          obtain ⟨b, second⟩ : ∃ b, us[i]? = some b := ⟨_, List.getElem?_eq_getElem (size' ▸ bound)⟩
          have inside : (a, b) ∈ ts.zip us :=
            List.mem_of_getElem? (List.getElem?_zip_eq_some.mpr ⟨first, second⟩)
          exact ⟨a, b, first, second, (argument found first second).mp (arguments _ inside)⟩
      · rintro ⟨never | perms, arguments⟩
        · cases never
        · refine .inr ⟨perms, rfl, size.symm.trans size', fun pair member => ?_⟩
          obtain ⟨i, found⟩ := List.mem_iff_getElem?.mp member
          obtain ⟨first, second⟩ := List.getElem?_zip_eq_some.mp found
          obtain ⟨bound, _⟩ := List.getElem?_eq_some_iff.mp first
          obtain ⟨A, pattern⟩ : ∃ A, Fs[i]? = some A := ⟨_, List.getElem?_eq_getElem (size ▸ bound)⟩
          obtain ⟨a, b, first', second', ordered⟩ := arguments i A pattern
          cases first.symm.trans first'
          cases second.symm.trans second'
          exact (argument pattern first second).mpr ordered
    · rw [head] at lower upper
      rw [flat (by simp [head])]
      rcases below v with ⟨missing, missing'⟩ | ⟨a, b, found, found', below⟩
      · replace lower : t.head = (Ty.var v).head := (by simpa [missing] using lower : t.head = .var v)
        replace upper : u.head = (Ty.var v).head := (by simpa [missing'] using upper : u.head = .var v)
        have definite : (Ty.var v).Definite arity := trivial
        have itself : s.Below env (.ty (.var v)) (.ty (.var v)) := below_self _ definite
        exact below_iff_of_heads lower upper itself
      · obtain ⟨w, found₁, lower⟩ | ⟨missing, _⟩ := lower
        · obtain ⟨w', found₂, upper⟩ | ⟨missing, _⟩ := upper
          · cases found.symm.trans found₁
            cases found'.symm.trans found₂
            exact below_iff_of_heads lower upper below
          · cases found'.symm.trans missing
        · cases found.symm.trans missing
    · rw [head] at lower upper
      rw [flat (by simp [head]), below_ty, PermsBelow]
      simp [show t.head = .never from lower]

end Session

namespace Substitution

theorem lookup_zip {R : Term → Term → Prop} {as bs : List Term} (related : List.Forall₂ R as bs) (vs : List Variable)
    (v : Variable) : (lookup ⟨vs.zip as⟩ v = none ∧ lookup ⟨vs.zip bs⟩ v = none) ∨
      ∃ a b, lookup ⟨vs.zip as⟩ v = some a ∧ lookup ⟨vs.zip bs⟩ v = some b ∧ R a b := by
  have entries : List.Forall₂ (fun x y : Variable × Term => x.1 = y.1 ∧ R x.2 y.2) (vs.zip as) (vs.zip bs) := by
    induction vs generalizing as bs with
    | nil => exact .nil
    | cons v vs ih =>
      cases related with
      | nil => exact .nil
      | cons first rest => exact .cons ⟨rfl, first⟩ (ih rest)
  have reversed := List.forall₂_reverse_iff.mpr entries
  unfold lookup
  dsimp only
  generalize (vs.zip as).reverse = xs at reversed ⊢
  generalize (vs.zip bs).reverse = ys at reversed ⊢
  induction reversed with
  | nil => exact .inl ⟨rfl, rfl⟩
  | @cons x y xs ys first _ ih =>
    by_cases same : x.1 = v
    · refine .inr ⟨x.2, y.2, ?_, ?_, first.2⟩
      · rw [List.find?_cons_of_pos (by simpa using same)]
        rfl
      · rw [List.find?_cons_of_pos (by simpa [← first.1] using same)]
        rfl
    · rwa [List.find?_cons_of_neg (by simpa using same), List.find?_cons_of_neg (by simpa [← first.1] using same)]

theorem Fits.kinded {σ : Substitution} {arity : TyName → List Kind} (fits : σ.Fits arity) : σ.Kinded := by
  intro v t found
  rcases fits.cases found with ⟨u, rfl, kind, _⟩ | ⟨p, rfl, kind, _⟩ <;> simp [Term.hasKind, Term.kind?, kind]

end Substitution

def Field.given (f : Field) (args : List Term) : Substitution := ⟨f.owner.generics.zip args⟩

theorem Term.AllDefinite.variables {arity : TyName → List Kind} : {vs : List Variable} → {ts : List Term} →
    Term.AllDefinite arity (vs.map Variable.kind) ts → ∀ entry ∈ vs.zip ts, entry.2.Definite arity entry.1.kind
  | [], _, _, _, member => absurd member (by simp)
  | _ :: _, _ :: _, definite, entry, member => by
    rcases List.mem_cons.mp member with rfl | member
    · exact definite.1
    · exact definite.2.variables entry member

namespace Session

variable {s : Session} {env : Env} {arity : TyName → List Kind} {places : List Place} {f : Field} {F T U : Ty}
variable {as bs : List Term}

structure Declares (s : Session) (arity : TyName → List Kind) (places : List Place) (f : Field) (F : Ty) : Prop where
  declared : s.program.fieldTy f = some F
  kinded : F.isKinded = true
  definite : F.Definite arity
  within : F.leases ⊆ places
  generics : arity (.aggregate f.owner) = f.owner.generics.map Variable.kind

theorem Declares.fits (declares : s.Declares arity places f F)
    (definite : Term.AllDefinite arity (arity (.aggregate f.owner)) as) : (f.given as).Fits arity := by
  rw [declares.generics] at definite
  exact fun v t found => definite.variables (v, t) (Substitution.mem_of_lookup found)

theorem leasesFrom_given (within : Term.leasesAll as ⊆ places) : (f.given as).LeasesFrom places := by
  intro v t found
  have member : t ∈ as := (List.of_mem_zip (Substitution.mem_of_lookup found)).2
  exact List.Subset.trans (Term.leases_subset_all member) within

theorem Declares.projects (declares : s.Declares arity places f F) (ground : Term.Ground arity places (.ty T))
    (head : T.head = .named (.aggregate f.owner) as) :
    ∃ G, Rules.declaredFieldTy s.program f as = .ok G ∧ F.Instance (f.given as) G ∧ G.Definite arity ∧
      s.fieldTy? T f = some (T.red.perm.applyTo G) ∧ Term.Ground arity places (.ty (T.red.perm.applyTo G)) := by
  obtain ⟨definite, within⟩ := ground
  have arguments : Term.AllDefinite arity (arity (.aggregate f.owner)) as := by
    have whole := definite.toTy
    rwa [head] at whole
  have leases : Term.leasesAll as ⊆ places := by
    have inside := T.leases_head
    rw [head] at inside
    exact List.Subset.trans inside within
  have fits := declares.fits arguments
  have length : f.owner.generics.length = as.length := by
    rw [arguments.length, declares.generics, List.length_map]
  have replaced := Ty.replace_eq_act fits.kinded F declares.kinded
  have inst := Ty.instance_of_replace fits F replaced
  have declared : Rules.declaredFieldTy s.program f as = .ok (F.act (f.given as).valuation) := by
    simp only [Rules.declaredFieldTy, declares.declared, Substitution.ofLists, if_pos length]
    exact replaced
  refine ⟨_, declared, inst, inst.definite fits declares.definite, ?_, ?_, ?_⟩
  · rw [fieldTy?, head]
    simp [declared, Except.toOption]
  · exact .applyTo definite.perm (inst.definite fits declares.definite)
  · refine List.Subset.trans (Ty.leases_applyTo _ _) (List.append_subset.mpr ⟨?_, ?_⟩)
    · exact List.Subset.trans T.leases_perm within
    · exact inst.leases (leasesFrom_given leases) declares.within

theorem fieldTy_yields {t : Ty} (typed : s.fieldTy? T f = some t) :
    ∃ last, (Goal.fieldTy env T f).Yields s (.ok t) last := by
  have known (i : InferIndex) : T.head ≠ .infer i := fun head => by simp [fieldTy?, head] at typed
  have sure : s.Sure env False (.fieldTy env T f) := sure_field known
  obtain ⟨r, last, _, _, yields, _, post, _⟩ :=
    Goal.yields_of_settles id ground_start fun w leads => sure w leads.sound
  have same : r.toOption = some t := (post.1 known).trans typed
  cases r with
  | ok u =>
    cases same
    exact ⟨last, yields⟩
  | error => cases same

theorem below_of_owner {p q : Perm} {G : Ty} (definite : G.Definite arity) (below : p.Below q)
    (plain : Chain.ofPerm p = .ok [] → Chain.ofPerm q = .ok []) :
    s.Below env (.ty (p.applyTo G)) (.ty (q.applyTo G)) := by
  have head (p : Perm) : (p.applyTo G).head = G.head := by rw [Ty.head, Ty.red_applyTo]
  obtain ⟨c, d, found, found', below⟩ := below
  obtain ⟨e, inner⟩ := Chain.ofPerm_definite definite.perm
  have pairs : List.Forall₂ (fun l m => l.sub m = true) c d := by
    rcases Chain.forall₂_of_sub (Chain.proper_ofPerm found') below with pairs | ⟨rfl, l, rfl, _⟩
    · exact pairs
    · cases found'.symm.trans (plain found)
  have perms : ((p.applyTo G).effective s env).Below ((q.applyTo G).effective s env) := by
    unfold Ty.effective
    rw [head p, head q, Ty.red_applyTo, Ty.red_applyTo]
    split
    · exact Perm.below_self trivial
    · refine ⟨_, _, Chain.ofPerm_compose found inner, Chain.ofPerm_compose found' inner, ?_⟩
      exact Chain.sub_of_forall₂ (Chain.forall₂_through pairs (List.forall₂_same.mpr fun l _ => l.sub_self))
  rw [below_ty, head p, head q]
  have itself : s.Below env (.ty G) (.ty G) := below_self G definite
  exact (below_ty.mp itself).imp_right fun heads => ⟨perms, heads.2⟩

/-- Owners in order have projections, and these are in order exactly if the permissions on them are at every
position of the declared type. So they are where only the permissions of the owners differ, on a head that is not
copy, and none of them is `my` in place of which a copy permission comes. -/
theorem projections_below_iff (types : s.TypesPlaces arity places) (o o' : Obligation)
    (declares : s.Declares arity places f F) (lower : Term.Ground arity places (.ty T))
    (upper : Term.Ground arity places (.ty U)) (head : T.head = .named (.aggregate f.owner) as)
    (head' : U.head = .named (.aggregate f.owner) bs) (below : s.Subtype env o T U) :
    ∃ t u, (∃ last, (Goal.fieldTy env T f).Yields s (.ok t) last) ∧
      (∃ last, (Goal.fieldTy env U f).Yields s (.ok u) last) ∧
      (s.Subtype env o' t u ↔ s.InOrder env (.ty F) (.ty t) (.ty u)) ∧
      (as = bs → s.Answers (.holds env .copy (.ty T.head.toTy)) false →
        (Chain.ofPerm T.red.perm = .ok [] → Chain.ofPerm U.red.perm = .ok []) → s.Subtype env o' t u) := by
  obtain ⟨G, declared, inst, definite, typed, ground⟩ := declares.projects lower head
  obtain ⟨G', declared', inst', _, typed', ground'⟩ := declares.projects upper head'
  rw [subtype_iff types lower upper, below_ty, head, head'] at below
  obtain ⟨perms, _, length, arguments⟩ := below.resolve_left nofun
  have order : s.SubstsBelow env (f.given as) (f.given bs) :=
    Substitution.lookup_zip (List.forall₂_iff_zip.mpr ⟨length, fun member => arguments _ member⟩) _
  refine ⟨_, _, fieldTy_yields typed, fieldTy_yields typed', ?_, ?_⟩
  · rw [subtype_iff types ground ground']
    refine below_iff_inOrder order F declares.definite (inst.headInstance _ ?_) (inst'.headInstance _ ?_) <;>
      rw [Ty.head, Ty.red_applyTo]
  · rintro rfl move plain
    cases declared.symm.trans declared'
    have within : Term.leases (.ty T.head.toTy) ⊆ places := List.Subset.trans T.leases_head lower.2
    have immaterial : ¬ s.Proves env .copy (.ty T.head.toTy) :=
      (answers_false_iff (answers_holds (t := .ty T.head.toTy) env lower.1.toTy.bare types.bare within)).mp move
    rw [subtype_iff types ground ground']
    rw [Ty.effective, Ty.effective, head', ← head, if_neg immaterial, if_neg immaterial] at perms
    exact below_of_owner definite perms plain

section Coupling

def firstKind : Variable := ⟨3, .type, some "A", default⟩

def secondKind : Variable := ⟨4, .type, some "B", default⟩

def couple : Aggregate := ⟨1, "Couple", .structDecl, [firstKind, secondKind], default⟩

def second : Field := ⟨0, "second", couple, default⟩

def coupling : Session := { leasing with program := Program.empty.addField second (.var secondKind) }

def generically : TyName → List Kind
  | .aggregate a => a.generics.map Variable.kind
  | _ => []

theorem coupling_typesPlaces : coupling.TypesPlaces generically [.var owner] where
  typed := by
    simp only [List.mem_singleton, forall_eq]
    exact ⟨point, rfl, trivial, List.nil_subset _⟩
  acyclic := by
    simp only [List.mem_singleton, forall_eq]
    intro cycle
    obtain ⟨_, _, t, typed, member⟩ := TransGen.tail'_iff.mp cycle
    cases typed
    cases member

theorem coupling_declares : coupling.Declares generically [.var owner] second (.var secondKind) where
  declared := rfl
  kinded := rfl
  definite := trivial
  within := List.nil_subset _
  generics := rfl

def coupleOf (t u : Ty) : Ty := .aggregate couple [.ty t, .ty u]

theorem ground_coupleOf {p : Perm} {t u : Ty} (definite : p.Definite) (within : p.leases ⊆ [.var owner])
    (first : Term.Ground generically [.var owner] (.ty t)) (other : Term.Ground generically [.var owner] (.ty u)) :
    Term.Ground generically [.var owner] (.ty (.perm p (coupleOf t u))) := by
  refine ⟨⟨definite, first.1, other.1, trivial⟩, List.append_subset.mpr ⟨within, ?_⟩⟩
  exact List.append_subset.mpr ⟨first.2, List.append_subset.mpr ⟨other.2, List.nil_subset _⟩⟩

theorem ground_plain (name : TyName) (none_ : generically name = []) :
    Term.Ground generically [.var owner] (.ty (.named name [])) := by
  refine ⟨?_, List.nil_subset _⟩
  change Term.AllDefinite generically (generically name) []
  rw [none_]
  trivial

def pointAsShared : Obligation := ⟨.subtype default (.ty point) (.ty (.perm .our point)), []⟩

/-- A shared number with a point is below an owned one, since a struct with a number is copy; but a shared point is
not below an owned one. -/
theorem shared_projection_not_below :
    coupling.TypesPlaces generically [.var owner] ∧
      coupling.Declares generically [.var owner] second (.var secondKind) ∧
      Term.Ground generically [.var owner] (.ty ((coupleOf (.primitive .u32) point).sharedFrom (.var owner))) ∧
      coupling.Subtype (.root []) pointAsShared ((coupleOf (.primitive .u32) point).sharedFrom (.var owner))
        (coupleOf (.primitive .u32) point) ∧
      (∃ last, (Goal.fieldTy (.root []) ((coupleOf (.primitive .u32) point).sharedFrom (.var owner)) second).Yields
        coupling (.ok (point.sharedFrom (.var owner))) last) ∧
      (∃ last, (Goal.fieldTy (.root []) (coupleOf (.primitive .u32) point) second).Yields coupling (.ok point) last) ∧
      ¬ coupling.Subtype (.root []) pointAsShared (point.sharedFrom (.var owner)) point := by
  have refused : ∃ e last, (Goal.subTys (.root []) (point.sharedFrom (.var owner)) point pointAsShared).Yields
      coupling (.error e) last := ⟨_, _, 60, _, rfl, rfl, rfl, rfl⟩
  refine ⟨coupling_typesPlaces, coupling_declares, ?_, ⟨_, 100, _, rfl, rfl, rfl, rfl⟩, ⟨_, 20, _, rfl, rfl, rfl, rfl⟩,
    ⟨_, 20, _, rfl, rfl, rfl, rfl⟩, fun below => ?_⟩
  · exact ground_coupleOf trivial (List.nil_subset _) (ground_plain _ rfl) (ground_plain _ rfl)
  · obtain ⟨_, yields⟩ := below
    obtain ⟨_, _, yields'⟩ := refused
    cases (yields.unique yields').1

theorem projections_below_iff_coupling :
    coupling.Subtype (.root []) pointAsShared (.perm .our (coupleOf point point))
        ((coupleOf point point).sharedFrom (.var owner)) ∧
      (∃ last, (Goal.fieldTy (.root []) ((coupleOf point point).sharedFrom (.var owner)) second).Yields coupling
        (.ok (point.sharedFrom (.var owner))) last) ∧
      coupling.Subtype (.root []) pointAsShared (.perm .our point) (point.sharedFrom (.var owner)) ∧
      coupling.InOrder (.root []) (.ty (.var secondKind)) (.ty (.perm .our point))
        (.ty (point.sharedFrom (.var owner))) := by
  have plain := ground_plain (.aggregate ⟨0, "Point", .classDecl, [], default⟩) rfl
  have lowerGround : Term.Ground generically [.var owner] (.ty (.perm .our (coupleOf point point))) :=
    ground_coupleOf trivial (List.nil_subset _) plain plain
  have upperGround : Term.Ground generically [.var owner] (.ty ((coupleOf point point).sharedFrom (.var owner))) :=
    ground_coupleOf trivial (List.nil_subset _) plain plain
  have copies : Chain.ofPerm .our = .ok [] → Chain.ofPerm (.shared [.var owner]) = .ok [] := by
    intro empty
    replace empty : Except.ok [Lien.our] = (.ok [] : Except Report Chain) := empty
    cases empty
  have below : coupling.Subtype (.root []) pointAsShared (.perm .our (coupleOf point point))
      ((coupleOf point point).sharedFrom (.var owner)) :=
    (subtype_iff coupling_typesPlaces lowerGround upperGround).mpr
      (below_of_owner (p := .our) (q := .shared [.var owner]) lowerGround.1.2 ⟨_, _, rfl, rfl, rfl⟩ copies)
  obtain ⟨t, u, ⟨_, lower⟩, ⟨_, upper⟩, order, owners⟩ := projections_below_iff coupling_typesPlaces
    (T := .perm .our (coupleOf point point)) (U := (coupleOf point point).sharedFrom (.var owner)) pointAsShared
    pointAsShared coupling_declares lowerGround upperGround rfl rfl below
  have read : ∃ last, (Goal.fieldTy (.root []) (.perm .our (coupleOf point point)) second).Yields coupling
      (.ok (.perm .our point)) last := ⟨_, 20, _, rfl, rfl, rfl, rfl⟩
  have read' : ∃ last, (Goal.fieldTy (.root []) ((coupleOf point point).sharedFrom (.var owner)) second).Yields
      coupling (.ok (point.sharedFrom (.var owner))) last := ⟨_, 20, _, rfl, rfl, rfl, rfl⟩
  obtain ⟨_, found⟩ := read
  obtain ⟨last', found'⟩ := read'
  cases (lower.unique found).1
  cases (upper.unique found').1
  have move : coupling.Answers (.holds (.root []) .copy (.ty (coupleOf point point))) false :=
    ⟨_, 60, _, rfl, rfl, rfl, rfl⟩
  have related := owners rfl move copies
  exact ⟨below, ⟨last', found'⟩, related, order.mp related⟩

end Coupling

end Session

end Ownership
