import Ownership.Proofs.ChainInstances
import Ownership.Proofs.Preorder

namespace Ownership

open Relation (TransGen)

theorem List.exists_mem_zip_left {α β : Type} {xs : List α} {ys : List β} (length : xs.length = ys.length)
    {x : α} (member : x ∈ xs) : ∃ y, (x, y) ∈ xs.zip ys := by
  rw [← List.map_fst_zip (Nat.le_of_eq length)] at member
  obtain ⟨⟨x, y⟩, listed, rfl⟩ := List.mem_map.mp member
  exact ⟨y, listed⟩

theorem List.exists_mem_zip_right {α β : Type} {xs : List α} {ys : List β} (length : xs.length = ys.length)
    {y : β} (member : y ∈ ys) : ∃ x, (x, y) ∈ xs.zip ys := by
  rw [← List.map_snd_zip (Nat.le_of_eq length.symm)] at member
  obtain ⟨⟨x, y⟩, listed, rfl⟩ := List.mem_map.mp member
  exact ⟨x, listed⟩

theorem Term.Ground.head {arity : TyName → List Kind} {places : List Place} {t : Ty}
    (ground : Term.Ground arity places (.ty t)) : Term.Ground arity places (.ty t.head.toTy) :=
  ⟨ground.1.toTy, fun _ h => ground.2 (t.leases_head h)⟩

theorem Term.Ground.redPerm {arity : TyName → List Kind} {places : List Place} {t : Ty}
    (ground : Term.Ground arity places (.ty t)) : Term.Ground arity places (.perm t.red.perm) :=
  ⟨ground.1.perm, fun _ h => ground.2 (t.leases_perm h)⟩

theorem Ty.Instance.var_unique {σ : Substitution} {v : Variable} {t u : Ty}
    (first : (Ty.var v).Instance σ t) (second : (Ty.var v).Instance σ u) : t = u := by
  rcases first with found | ⟨free, rfl⟩ <;> rcases second with found' | ⟨free', rfl⟩
  · rw [found] at found'
    cases found'
    rfl
  · rw [found] at free'
    cases free'
  · rw [free] at found'
    cases found'
  · rfl

namespace Session

variable {s s' : Session} {env env' : Env} {σ : Substitution} {arity : TyName → List Kind}
variable {places places' : List Place}

section Copies

theorem not_copy_my : ¬ s.Proves env .copy (.perm .my) := by simp [Predicate.ofMy]

theorem proves_copy_compose {p q : Perm} : s.Proves env .copy (.perm (p.compose q)) ↔
    s.Proves env .copy (.perm p) ∨ s.Proves env .copy (.perm q) := by
  rcases p.compose_cases q with ⟨rfl, same⟩ | ⟨rfl, same⟩ | same <;> rw [same]
  · simp [Predicate.ofMy]
  · simp [Predicate.ofMy]
  · exact proves_apply_either rfl

theorem proves_copy_red (t : Ty) : s.Proves env .copy (.ty t) ↔
    s.Proves env .copy (.perm t.red.perm) ∨ s.Proves env .copy (.ty t.head.toTy) := by
  cases t with
  | perm p t =>
    rw [proves_perm_either rfl, proves_copy_red t]
    change _ ↔ s.Proves env .copy (.perm (p.compose t.red.perm)) ∨ _
    rw [proves_copy_compose, or_assoc]
    rfl
  | _ => exact (or_iff_right not_copy_my).symm

def CopyLien (s : Session) (env : Env) (l : Lien) : Prop := s.Proves env .copy (.perm l.toPerm)

theorem copyLien_of_isCopy {l : Lien} (copy : l.isCopy = true) : s.CopyLien env l := by
  cases l with
  | our => exact .our rfl
  | shared => exact .shared rfl
  | _ => cases copy

theorem exists_copy_through {c d : Chain} : (∃ l ∈ c.through d, s.CopyLien env l) ↔
    (∃ l ∈ c, s.CopyLien env l) ∨ ∃ l ∈ d, s.CopyLien env l := by
  cases d with
  | nil => simp
  | cons m d =>
    cases copy : m.isCopy with
    | true =>
      rw [Chain.through_of_copy ⟨m, d, rfl, copy⟩]
      exact ⟨.inr, fun _ => ⟨m, List.mem_cons_self, copyLien_of_isCopy copy⟩⟩
    | false => simp only [Chain.through_cons_of_moves copy, List.mem_append, or_and_right, exists_or]

theorem proves_copy_chain {p : Perm} {c : Chain} (definite : p.Definite) (found : Chain.ofPerm p = .ok c) :
    s.Proves env .copy (.perm p) ↔ ∃ l ∈ c, s.CopyLien env l := by
  induction p generalizing c with
  | my =>
    cases found
    simp [Predicate.ofMy]
  | apply l r left right =>
    obtain ⟨d, foundl⟩ := Chain.ofPerm_definite definite.1
    obtain ⟨e, foundr⟩ := Chain.ofPerm_definite definite.2
    rw [Chain.ofPerm_apply foundl foundr] at found
    cases found
    rw [exists_copy_through, proves_apply_either rfl, left definite.1 foundl, right definite.2 foundr]
  | infer | error => exact definite.elim
  | _ =>
    cases found
    constructor
    · exact fun copy => ⟨_, List.mem_singleton_self _, copy⟩
    · rintro ⟨l, member, copy⟩
      rw [List.mem_singleton.mp member] at copy
      exact copy

theorem exists_copy_subst {c : Chain} : (∃ l ∈ c.subst σ, s.CopyLien env l) ↔
    ∃ l ∈ c, ∃ l' ∈ l.subst σ, s.CopyLien env l' := by
  induction c with
  | nil => simp [Chain.subst]
  | cons l c ih =>
    rw [Chain.subst_cons, exists_copy_through, ih]
    simp only [List.exists_mem_cons_iff]

theorem copy_named_iff {name : TyName} {as bs as' bs' : List Term} (length : as'.length = bs'.length)
    (movesa : ¬ s.Proves env .copy (.ty (.named name as))) (movesb : ¬ s.Proves env .copy (.ty (.named name bs)))
    (args : (∀ a ∈ as, ¬ s.Proves env .copy a) → (∀ b ∈ bs, ¬ s.Proves env .copy b) →
      ∀ pair ∈ as'.zip bs', s'.Proves env' .copy pair.1 ↔ s'.Proves env' .copy pair.2) :
    s'.Proves env' .copy (.ty (.named name as')) ↔ s'.Proves env' .copy (.ty (.named name bs')) := by
  cases rule : Predicate.ofNamed .copy name with
  | always => exact (movesa (.always rule)).elim
  | never => rw [proves_named, proves_named, rule]
  | someArgument =>
    rw [proves_named, rule] at movesa movesb
    rw [proves_named, proves_named, rule]
    have pairs := args (fun a member copy => movesa ⟨a, member, copy⟩) fun b member copy =>
      movesb ⟨b, member, copy⟩
    constructor
    · rintro ⟨a, member, copy⟩
      obtain ⟨b, listed⟩ := List.exists_mem_zip_left length member
      exact ⟨b, (List.of_mem_zip listed).2, (pairs _ listed).mp copy⟩
    · rintro ⟨b, member, copy⟩
      obtain ⟨a, listed⟩ := List.exists_mem_zip_right length member
      exact ⟨a, (List.of_mem_zip listed).1, (pairs _ listed).mpr copy⟩
  | everyArgument =>
    cases name <;> simp only [Predicate.ofNamed, reduceCtorEq] at rule
    split at rule <;> cases rule

end Copies

section Splitting

theorem split_instance (fits : σ.Fits arity) : {t u : Ty} → t.Instance σ u → t.Definite arity →
    ∃ q w, t.red.perm.Instance σ q ∧ t.head.toTy.Instance σ w ∧ u.head = w.head ∧
      ∀ c e, Chain.ofPerm q = .ok c → Chain.ofPerm w.red.perm = .ok e →
        Chain.ofPerm u.red.perm = .ok (c.through e)
  | .perm p t, u, ⟨p', t', outer, inner, same⟩, definite => by
    obtain ⟨q, w, perms, head, heads, chains⟩ := split_instance fits inner definite.2
    have red := Ty.red_of_perm same
    refine ⟨p'.compose q, w, outer.compose perms, head, (congrArg RedTy.head red).trans heads,
      fun c e found foundw => ?_⟩
    obtain ⟨b, foundp⟩ := Chain.ofPerm_definite (outer.definite fits definite.1)
    obtain ⟨d, foundq⟩ := Chain.ofPerm_definite (perms.definite fits definite.2.perm)
    rw [Chain.ofPerm_compose foundp foundq] at found
    cases found
    rw [red, Chain.through_assoc]
    exact Chain.ofPerm_compose foundp (chains d e foundq foundw)
  | .named name args, u, ⟨args', same, all⟩, _ => by
    subst same
    refine ⟨.my, .named name args', rfl, ⟨args', rfl, all⟩, rfl, fun c e found foundw => ?_⟩
    cases found
    cases foundw
    rfl
  | .var v, u, inst, _ => by
    refine ⟨.my, u, rfl, inst, rfl, fun c e found foundw => ?_⟩
    cases found
    rw [Chain.nil_through]
    exact foundw
  | .never, u, inst, _ => by
    obtain rfl : u = .never := inst
    refine ⟨.my, .never, rfl, rfl, rfl, fun c e found foundw => ?_⟩
    cases found
    cases foundw
    rfl

theorem copy_instance_iff (fits : σ.Fits arity) {t u : Ty} (inst : t.Instance σ u)
    (ground : Term.Ground arity places (.ty t)) :
    ∃ q w, t.red.perm.Instance σ q ∧ t.head.toTy.Instance σ w ∧
      (s'.Proves env' .copy (.ty u) ↔ s'.Proves env' .copy (.perm q) ∨ s'.Proves env' .copy (.ty w)) := by
  obtain ⟨q, w, perms, head, heads, chains⟩ := split_instance fits inst ground.1
  obtain ⟨c, found⟩ := Chain.ofPerm_definite (perms.definite fits ground.1.perm)
  have definite : w.Definite arity := head.definite fits ground.1.toTy
  obtain ⟨e, foundw⟩ := Chain.ofPerm_definite definite.perm
  refine ⟨q, w, perms, head, ?_⟩
  rw [proves_copy_red u, proves_copy_red w, heads,
    proves_copy_chain (inst.definite fits ground.1).perm (chains c e found foundw),
    proves_copy_chain (perms.definite fits ground.1.perm) found, proves_copy_chain definite.perm foundw,
    exists_copy_through, or_assoc]

end Splitting

theorem arguments_of_instances {name : TyName} {as bs as' bs' : List Term} {pair : Term × Term}
    (lower : Term.Ground arity places (.ty (.named name as))) (upper : Term.Ground arity places (.ty (.named name bs)))
    (alla : Term.InstanceAll σ as as') (allb : Term.InstanceAll σ bs bs') (listed : pair ∈ as'.zip bs') :
    ∃ x y k, (x, y) ∈ as.zip bs ∧ x.Definite arity k ∧ y.Definite arity k ∧ x.leases ⊆ places ∧ y.leases ⊆ places ∧
      x.Instance σ pair.1 ∧ y.Instance σ pair.2 := by
  obtain ⟨x, y, found, instx, insty⟩ := alla.zip allb listed
  obtain ⟨⟨k, kindx, kindy⟩, _⟩ := Term.ground_arguments lower upper found
  obtain ⟨memberx, membery⟩ := List.of_mem_zip found
  exact ⟨x, y, k, found, kindx, kindy, fun _ h => lower.2 (Term.leases_subset_all memberx h),
    fun _ h => upper.2 (Term.leases_subset_all membery h), instx, insty⟩

section Keeping

def KeepsCopies (s : Session) (env : Env) (s' : Session) (env' : Env) (places : List Place) : Prop :=
  ∀ place ∈ places, s'.Proves env' .copy (.place place) → s.Proves env .copy (.place place)

variable (keeps : s.KeepsCopies env s' env' places) (fits : σ.Fits arity)
include keeps fits

theorem copy_perm_iff {p q p' q' : Perm} (below : p.Below q) (lower : Term.Ground arity places (.perm p))
    (upper : Term.Ground arity places (.perm q)) (instp : p.Instance σ p') (instq : q.Instance σ q')
    (movesp : ¬ s.Proves env .copy (.perm p)) (movesq : ¬ s.Proves env .copy (.perm q)) :
    s'.Proves env' .copy (.perm p') ↔ s'.Proves env' .copy (.perm q') := by
  obtain ⟨c, d, foundp, foundq, below⟩ := below
  rw [proves_copy_chain (instp.definite fits lower.1) (Chain.ofPerm_instance fits instp lower.1 foundp),
    proves_copy_chain (instq.definite fits upper.1) (Chain.ofPerm_instance fits instq upper.1 foundq),
    exists_copy_subst, exists_copy_subst]
  rw [proves_copy_chain lower.1 foundp] at movesp
  rw [proves_copy_chain upper.1 foundq] at movesq
  have leasesp : ∀ ps, .leased ps ∈ c → ps ⊆ places := fun ps member _ h =>
    lower.2 (Chain.leases_of_mem lower.1 foundp member h)
  have leasesq : ∀ ps, .leased ps ∈ d → ps ⊆ places := fun ps member _ h =>
    upper.2 (Chain.leases_of_mem upper.1 foundq member h)
  rcases Chain.forall₂_of_sub (Chain.proper_ofPerm foundq) below with pairs | ⟨rfl, l, rfl, copy⟩
  · -- a lease that was not copy has a place that is not, and it stays so
    have lease {ps : List Place} (within : ps ⊆ places) (moves : ¬ s.CopyLien env (.leased ps)) :
        ¬ ∃ l' ∈ (Lien.leased ps).subst σ, s'.CopyLien env' l' := by
      rintro ⟨l', member, copy⟩
      rw [List.mem_singleton.mp member] at copy
      have all := (proves_leased (.inl rfl)).mp copy
      exact moves (.leased (.inl rfl) fun place member => keeps place (within member) (all place member))
    clear foundp foundq below
    induction pairs with
    | nil => rfl
    | @cons l m c d first rest ih =>
      simp only [List.exists_mem_cons_iff] at movesp movesq ⊢
      rw [not_or] at movesp movesq
      refine or_congr ?_ (ih movesp.2 movesq.2 (fun ps h => leasesp ps (List.mem_cons_of_mem _ h))
        fun ps h => leasesq ps (List.mem_cons_of_mem _ h))
      cases l <;> cases m <;> simp only [Lien.sub, Bool.false_eq_true, decide_eq_true_eq] at first
      case our.our => rfl
      case our.shared => exact (movesp.1 (copyLien_of_isCopy rfl)).elim
      case shared.shared => exact (movesp.1 (copyLien_of_isCopy rfl)).elim
      case leased.leased ps qs =>
        exact iff_of_false (lease (leasesp ps List.mem_cons_self) movesp.1)
          (lease (leasesq qs List.mem_cons_self) movesq.1)
      case var.var => rw [first]
      case infer.infer => rw [first]
  · exact (movesq ⟨l, List.mem_singleton_self l, copyLien_of_isCopy copy⟩).elim

theorem copy_iff_of_heads {t u t' u' : Ty} (instt : t.Instance σ t') (instu : u.Instance σ u')
    (groundt : Term.Ground arity places (.ty t)) (groundu : Term.Ground arity places (.ty u))
    (perms : (t.effective s env).Below (u.effective s env)) (movest : ¬ s.Proves env .copy (.ty t))
    (movesu : ¬ s.Proves env .copy (.ty u)) : ∃ v w, t.head.toTy.Instance σ v ∧ u.head.toTy.Instance σ w ∧
      ((s'.Proves env' .copy (.ty v) ↔ s'.Proves env' .copy (.ty w)) →
        (s'.Proves env' .copy (.ty t') ↔ s'.Proves env' .copy (.ty u'))) := by
  rw [proves_copy_red, not_or] at movest movesu
  have effectivet : t.effective s env = t.red.perm := if_neg movest.2
  have effectiveu : u.effective s env = u.red.perm := if_neg movesu.2
  rw [effectivet, effectiveu] at perms
  obtain ⟨p, v, instp, instv, copyt⟩ := copy_instance_iff fits instt groundt
  obtain ⟨q, w, instq, instw, copyu⟩ := copy_instance_iff fits instu groundu
  refine ⟨v, w, instv, instw, fun heads => ?_⟩
  rw [copyt, copyu]
  exact or_congr (copy_perm_iff keeps fits perms groundt.redPerm groundu.redPerm instp instq movest.1 movesu.1) heads

theorem copy_iff_of_below {a b : Term} (below : s.Below env a b) {k : Kind} {a' b' : Term} (kinda : a.Definite arity k)
    (kindb : b.Definite arity k) (withina : a.leases ⊆ places) (withinb : b.leases ⊆ places) (insta : a.Instance σ a')
    (instb : b.Instance σ b') (movesa : ¬ s.Proves env .copy a) (movesb : ¬ s.Proves env .copy b) :
    s'.Proves env' .copy a' ↔ s'.Proves env' .copy b' := by
  induction below generalizing k a' b' with
  | @never t u head =>
    refine (movesa ((proves_copy_red t).mpr (.inr ?_))).elim
    rw [head]
    exact .never rfl
  | @named t u name as bs lower upper perms length args ih =>
    obtain ⟨t', rfl, instt⟩ := insta
    obtain ⟨u', rfl, instu⟩ := instb
    have groundt := (kinda.ground withina).1
    have groundu := (kindb.ground withinb).1
    obtain ⟨v, w, instv, instw, same⟩ := copy_iff_of_heads keeps fits instt instu groundt groundu perms movesa movesb
    rw [proves_copy_red, not_or, lower] at movesa
    rw [proves_copy_red, not_or, upper] at movesb
    rw [lower] at instv
    rw [upper] at instw
    obtain ⟨as', rfl, alla⟩ := instv
    obtain ⟨bs', rfl, allb⟩ := instw
    have lowerHead := groundt.head
    have upperHead := groundu.head
    rw [lower] at lowerHead
    rw [upper] at upperHead
    refine same (copy_named_iff (alla.forall₂.length_eq.symm.trans (length.trans allb.forall₂.length_eq))
      movesa.2 movesb.2 fun none none' pair listed => ?_)
    obtain ⟨x, y, k, found, kindx, kindy, leasesx, leasesy, instx, insty⟩ :=
      arguments_of_instances lowerHead upperHead alla allb listed
    obtain ⟨memberx, membery⟩ := List.of_mem_zip found
    exact ih (x, y) found kindx kindy leasesx leasesy instx insty (none x memberx) (none' y membery)
  | @var t u v lower upper perms =>
    obtain ⟨t', rfl, instt⟩ := insta
    obtain ⟨u', rfl, instu⟩ := instb
    obtain ⟨x, y, instx, insty, same⟩ := copy_iff_of_heads keeps fits instt instu (kinda.ground withina).1
      (kindb.ground withinb).1 perms movesa movesb
    rw [lower] at instx
    rw [upper] at insty
    exact same (by rw [Ty.Instance.var_unique instx insty])
  | @perm p q below =>
    obtain ⟨p', rfl, instp⟩ := insta
    obtain ⟨q', rfl, instq⟩ := instb
    exact copy_perm_iff keeps fits below (kinda.ground withina).1 (kindb.ground withinb).1 instp instq movesa movesb

end Keeping

section Order

variable (instantiates : s.Instantiates σ arity s') (grants : s'.Grants env' σ env)
include instantiates grants

/-- On a head that keeps its name, permissions stay in order as long as both heads are copy or none. -/
theorem effective_below_of_named {t u t' u' : Ty} {name : TyName} {as bs : List Term} (lower : t.head = .named name as)
    (upper : u.head = .named name bs) (groundt : Term.Ground arity places (.ty t))
    (groundu : Term.Ground arity places (.ty u)) (instt : t.Instance σ t') (instu : u.Instance σ u')
    (perms : (t.effective s env).Below (u.effective s env))
    (together : ¬ s.Proves env .copy (.ty t.head.toTy) → ¬ s.Proves env .copy (.ty u.head.toTy) →
      (s'.Proves env' .copy (.ty t'.head.toTy) ↔ s'.Proves env' .copy (.ty u'.head.toTy))) :
    (t'.effective s' env').Below (u'.effective s' env') := by
  have copies {x x' : Ty} {args : List Term} (inst : x.Instance σ x') (head : x.head = .named name args)
      (copy : s.Proves env .copy (.ty x.head.toTy)) : s'.Proves env' .copy (.ty x'.head.toTy) := by
    obtain ⟨args', head', all, _⟩ := inst.red head
    rw [head] at copy
    rw [head']
    exact copy.instantiate instantiates grants ⟨_, rfl, args', rfl, all⟩
  obtain ⟨_, _, _, permt⟩ := instt.red lower
  obtain ⟨_, _, _, permu⟩ := instu.red upper
  have dropped {x : Ty} {s : Session} {env : Env} (copy : s.Proves env .copy (.ty x.head.toTy)) :
      x.effective s env = .my := effective_of_copy copy
  have kept {x : Ty} {s : Session} {env : Env} (moves : ¬ s.Proves env .copy (.ty x.head.toTy)) :
      x.effective s env = x.red.perm := if_neg moves
  have plain : Perm.Below .my .my := Perm.below_self trivial
  have fits := instantiates.fits
  by_cases copyt : s.Proves env .copy (.ty t.head.toTy)
  · rw [dropped copyt] at perms
    rw [dropped (copies instt lower copyt)]
    by_cases copyu : s'.Proves env' .copy (.ty u'.head.toTy)
    · rw [dropped copyu]
      exact plain
    · rw [kept fun copy => copyu (copies instu upper copy)] at perms
      rw [kept copyu]
      exact perms.instantiate fits trivial groundu.1.perm rfl permu
  rw [kept copyt] at perms
  by_cases copyu : s.Proves env .copy (.ty u.head.toTy)
  · rw [dropped copyu] at perms
    rw [dropped (copies instu upper copyu)]
    by_cases copyt' : s'.Proves env' .copy (.ty t'.head.toTy)
    · rw [dropped copyt']
      exact plain
    · rw [kept copyt']
      exact perms.instantiate fits groundt.1.perm trivial permt rfl
  · rw [kept copyu] at perms
    by_cases copyt' : s'.Proves env' .copy (.ty t'.head.toTy)
    · rw [dropped copyt', dropped ((together copyt copyu).mp copyt')]
      exact plain
    · rw [kept copyt', kept fun copy => copyt' ((together copyt copyu).mpr copy)]
      exact perms.instantiate fits groundt.1.perm groundu.1.perm permt permu

variable (unleased : ∀ v w c, (Ty.var v).Instance σ w → ¬ s'.Proves env' .copy (.ty w.head.toTy) →
  Chain.ofPerm w.red.perm = .ok c → c = [] ∨ c.StartsCopy)
include unleased

theorem effective_below_of_var {t u t' u' : Ty} {v : Variable} (lower : t.head = .var v)
    (upper : u.head = .var v) (groundt : Term.Ground arity places (.ty t)) (groundu : Term.Ground arity places (.ty u))
    (instt : t.Instance σ t') (instu : u.Instance σ u') (perms : (t.effective s env).Below (u.effective s env)) :
    t'.head = u'.head ∧ (∃ w : Ty, w.Definite arity ∧ t'.head = w.head) ∧
      (t'.effective s' env').Below (u'.effective s' env') := by
  have fits := instantiates.fits
  obtain ⟨p, w, instp, instw, headt, chainst⟩ := split_instance fits instt groundt.1
  obtain ⟨q, w', instq, instw', headu, chainsu⟩ := split_instance fits instu groundu.1
  rw [lower] at instw
  rw [upper] at instw'
  obtain rfl := instw.var_unique instw'
  have definite : w.Definite arity := instw.definite fits trivial
  refine ⟨headt.trans headu.symm, ⟨w, definite, headt⟩, ?_⟩
  by_cases copy : s'.Proves env' .copy (.ty w.head.toTy)
  · rw [effective_of_copy (headt ▸ copy), effective_of_copy (headu ▸ copy)]
    exact Perm.below_self trivial
  have effectivet : t'.effective s' env' = t'.red.perm := if_neg (headt ▸ copy)
  have effectiveu : u'.effective s' env' = u'.red.perm := if_neg (headu ▸ copy)
  rw [effectivet, effectiveu]
  obtain ⟨c, foundt⟩ := Chain.ofPerm_definite groundt.1.perm
  obtain ⟨d, foundu⟩ := Chain.ofPerm_definite groundu.1.perm
  obtain ⟨e, foundw⟩ := Chain.ofPerm_definite definite.perm
  have chaint := chainst _ e (Chain.ofPerm_instance fits instp groundt.1.perm foundt) foundw
  have chainu := chainsu _ e (Chain.ofPerm_instance fits instq groundu.1.perm foundu) foundw
  refine ⟨_, _, chaint, chainu, ?_⟩
  rcases unleased v w e instw copy foundw with rfl | starts
  · -- nothing is added, and the permission was not dropped before either
    have moves : ¬ s.Proves env .copy (.ty (.var v)) := fun assumed => by
      have copies := assumed.instantiate instantiates grants ⟨w, rfl, instw⟩
      rcases (proves_copy_red w).mp copies with perm | head
      · obtain ⟨l, member, _⟩ := (proves_copy_chain definite.perm foundw).mp perm
        cases member
      · exact copy head
    have kept {x : Ty} (head : x.head = .var v) : x.effective s env = x.red.perm := if_neg (head ▸ moves)
    rw [kept lower, kept upper] at perms
    obtain ⟨c', d', foundt', foundu', below⟩ := perms
    rw [foundt] at foundt'
    rw [foundu] at foundu'
    cases foundt'
    cases foundu'
    exact Chain.sub_subst (Chain.proper_ofPerm foundu) below
  · rw [Chain.through_of_copy starts, Chain.through_of_copy starts]
    exact e.sub_self

theorem Below.instantiate (keeps : s.KeepsCopies env s' env' places) {a b : Term}
    (below : s.Below env a b) {k : Kind} {a' b' : Term} (kinda : a.Definite arity k)
    (kindb : b.Definite arity k) (withina : a.leases ⊆ places) (withinb : b.leases ⊆ places)
    (insta : a.Instance σ a') (instb : b.Instance σ b') : s'.Below env' a' b' := by
  have fits := instantiates.fits
  induction below generalizing k a' b' with
  | @never t u head =>
    obtain ⟨t', rfl, instt⟩ := insta
    obtain ⟨u', rfl, instu⟩ := instb
    obtain ⟨_, w, _, instw, same, _⟩ := split_instance fits instt (kinda.ground withina).1.1
    rw [head] at instw
    obtain rfl : w = .never := instw
    exact .never same
  | @named t u name as bs lower upper perms length args ih =>
    obtain ⟨t', rfl, instt⟩ := insta
    obtain ⟨u', rfl, instu⟩ := instb
    have groundt := (kinda.ground withina).1
    have groundu := (kindb.ground withinb).1
    have lowerHead := groundt.head
    have upperHead := groundu.head
    rw [lower] at lowerHead
    rw [upper] at upperHead
    obtain ⟨as', lower', alla, _⟩ := instt.red lower
    obtain ⟨bs', upper', allb, _⟩ := instu.red upper
    refine .named lower' upper' (effective_below_of_named instantiates grants lower upper groundt groundu instt
      instu perms fun movest movesu => ?_) ?_ fun pair listed => ?_
    · rw [lower] at movest
      rw [upper] at movesu
      rw [lower', upper']
      have heads : s.Below env (.ty (.named name as)) (.ty (.named name bs)) := by
        refine .named rfl rfl ?_ length args
        rw [show (Ty.named name as).effective s env = .my from if_neg movest,
          show (Ty.named name bs).effective s env = .my from if_neg movesu]
        exact Perm.below_self trivial
      exact copy_iff_of_below keeps fits heads (k := .type) lowerHead.1 upperHead.1 lowerHead.2 upperHead.2
        ⟨_, rfl, as', rfl, alla⟩ ⟨_, rfl, bs', rfl, allb⟩ movest movesu
    · exact alla.forall₂.length_eq.symm.trans (length.trans allb.forall₂.length_eq)
    · obtain ⟨x, y, k, found, kindx, kindy, leasesx, leasesy, instx, insty⟩ :=
        arguments_of_instances lowerHead upperHead alla allb listed
      exact ih (x, y) found kindx kindy leasesx leasesy instx insty
  | @var t u v lower upper perms =>
    obtain ⟨t', rfl, instt⟩ := insta
    obtain ⟨u', rfl, instu⟩ := instb
    obtain ⟨same, ⟨w, definite, head⟩, perms'⟩ := effective_below_of_var instantiates grants unleased lower upper
      (kinda.ground withina).1 (kindb.ground withinb).1 instt instu perms
    have self : s'.Below env' (.ty w) (.ty w) := below_self w definite
    refine below_ty.mpr ((below_ty.mp self).imp ?_ fun both => ?_)
    · exact head.trans
    · rw [← same, head]
      exact ⟨perms', both.2⟩
  | @perm p q below =>
    obtain ⟨p', rfl, instp⟩ := insta
    obtain ⟨q', rfl, instq⟩ := instb
    exact .perm (below.instantiate fits (kinda.ground withina).1.1 (kindb.ground withinb).1.1 instp instq)

end Order

def Holds (s : Session) (env : Env) (p : Predicate) (t : Term) : Prop :=
  ∃ last, (Goal.holds env p t).Yields s (.ok true) last

def PlaceHolds (s : Session) (env : Env) (p : Predicate) (place : Place) : Prop :=
  ∃ last, (Goal.placeHolds env p place).Yields s (.ok true) last

/-- No type that replaces a variable is leased, unless its head is copy: it has no permission on it, or a copy one
first. -/
def Unleased (s : Session) (env : Env) (σ : Substitution) : Prop :=
  ∀ v w c, (Ty.var v).Instance σ w → ¬ s.Holds env .copy (.ty w.head.toTy) → Chain.ofPerm w.red.perm = .ok c →
    c = [] ∨ c.StartsCopy

theorem holds_iff {p : Predicate} (types : s.TypesPlaces arity places) {t : Term} (ground : t.Ground arity places)
    (kind : t.kind? ≠ some .place) : s.Holds env p t ↔ s.Proves env p t :=
  answers_true_iff (answers_holds env (ground.bare kind).1 types.bare (ground.bare kind).2)

theorem placeHolds_iff (types : s.TypesPlaces arity places) {place : Place} (member : place ∈ places) :
    s.PlaceHolds env .copy place ↔ s.Proves env .copy (.place place) :=
  have bare := types.bare.bare place member
  answers_true_iff (answers_of_clear (bare.tests place (List.mem_singleton_self place) env .copy (.inl rfl)).1 ⟨rfl, bare⟩)

theorem ground_instance (fits : σ.Fits arity) (from_ : σ.LeasesFrom places') (within : places ⊆ places')
    {t u : Term} (ground : t.Ground arity places) (kind : t.kind? ≠ some .place) (inst : t.Instance σ u) :
    u.Ground arity places' ∧ u.kind? ≠ some .place := by
  cases t with
  | ty t =>
    obtain ⟨t', rfl, inst⟩ := inst
    exact ⟨⟨inst.definite fits ground.1, inst.leases from_ (List.Subset.trans ground.2 within)⟩, nofun⟩
  | perm p =>
    obtain ⟨p', rfl, inst⟩ := inst
    exact ⟨⟨inst.definite fits ground.1, inst.leases from_ (List.Subset.trans ground.2 within)⟩, nofun⟩
  | place => exact (kind rfl).elim
  | error => exact ground.elim

theorem ground_termOf (fits : σ.Fits arity) (from_ : σ.LeasesFrom places') {v : Variable} (generic : v.kind ≠ .place) :
    (σ.termOf v).Ground arity places' ∧ (σ.termOf v).kind? ≠ some .place := by
  unfold Substitution.termOf
  cases found : σ.lookup v with
  | none =>
    unfold Term.ofVariable
    cases kind : v.kind
    · exact ⟨⟨trivial, List.nil_subset _⟩, nofun⟩
    · exact ⟨⟨trivial, List.nil_subset _⟩, nofun⟩
    · exact (generic kind).elim
  | some t =>
    rcases fits.cases found with ⟨u, rfl, _, definite⟩ | ⟨q, rfl, _, definite⟩
    · exact ⟨⟨definite, from_ v _ found⟩, nofun⟩
    · exact ⟨⟨definite, from_ v _ found⟩, nofun⟩

section Theorems

variable (types : s.TypesPlaces arity places) (types' : s'.TypesPlaces arity places')
  (within : places ⊆ places') (instantiates : s.Instantiates σ arity s') (from_ : σ.LeasesFrom places')
  (granted : ∀ v p, env.assumes v p = true → v.kind ≠ .place ∧ s'.Holds env' p (σ.termOf v))
include types' instantiates from_ granted

theorem grants_of_holds : s'.Grants env' σ env := by
  intro v p assumed
  obtain ⟨generic, holds⟩ := granted v p assumed
  obtain ⟨ground, kind⟩ := ground_termOf instantiates.fits from_ generic
  exact ⟨generic, (holds_iff types' ground kind).mp holds⟩

include types within

theorem holds_instantiate {p : Predicate} {t t' : Term} (ground : t.Ground arity places)
    (kind : t.kind? ≠ some .place) (replaced : t.subst σ = .ok t') (holds : s.Holds env p t) :
    s'.Holds env' p t' := by
  have inst := Term.instance_of_replace instantiates.fits t replaced
  have grants := grants_of_holds types' instantiates from_ granted
  obtain ⟨ground', kind'⟩ := ground_instance instantiates.fits from_ within ground kind inst
  rw [holds_iff types ground kind] at holds
  rw [holds_iff types' ground' kind']
  exact holds.instantiate instantiates grants inst

/-- Subtyping of generic types carries over to their instances, if no type that replaces a variable is
leased, except on a copy head, and no place that is leased from becomes copy. -/
theorem subtype_instantiate {o o' : Obligation} {t u t' u' : Ty} (unleased : s'.Unleased env' σ)
    (lower : Term.Ground arity places (.ty t)) (upper : Term.Ground arity places (.ty u))
    (keeps : ∀ place ∈ t.leases ++ u.leases, s'.PlaceHolds env' .copy place → s.PlaceHolds env .copy place)
    (replacedt : t.subst σ = .ok t') (replacedu : u.subst σ = .ok u') (below : s.Subtype env o t u) :
    s'.Subtype env' o' t' u' := by
  have fits := instantiates.fits
  have grants := grants_of_holds types' instantiates from_ granted
  have instt : Term.Instance σ (.ty t) (.ty t') := ⟨t', rfl, Ty.instance_of_replace fits t replacedt⟩
  have instu : Term.Instance σ (.ty u) (.ty u') := ⟨u', rfl, Ty.instance_of_replace fits u replacedu⟩
  have leased : t.leases ++ u.leases ⊆ places := List.append_subset.mpr ⟨lower.2, upper.2⟩
  have keeps : s.KeepsCopies env s' env' (t.leases ++ u.leases) := fun place member copy => by
    rw [← placeHolds_iff types' (within (leased member))] at copy
    exact (placeHolds_iff types (leased member)).mp (keeps place member copy)
  have unleased (v : Variable) (w : Ty) (c : Chain) (inst : (Ty.var v).Instance σ w)
      (moves : ¬ s'.Proves env' .copy (.ty w.head.toTy)) : Chain.ofPerm w.red.perm = .ok c → c = [] ∨ c.StartsCopy := by
    have ground : Term.Ground arity places' (.ty w) := ⟨inst.definite fits trivial, inst.leases from_ (List.nil_subset _)⟩
    exact unleased v w c inst fun copies => moves ((holds_iff types' ground.head nofun).mp copies)
  rw [subtype_iff types lower upper] at below
  rw [subtype_iff types' (ground_instance fits from_ within lower nofun instt).1
    (ground_instance fits from_ within upper nofun instu).1]
  exact below.instantiate instantiates grants unleased keeps (k := .type) lower.1 upper.1
    (List.subset_append_left _ _) (List.subset_append_right _ _) instt instu

end Theorems

section Generics

def generic : Variable := ⟨9, .type, some "T", default⟩

def holding (t : Ty) : Session where
  config := {}
  program := .empty
  variableTys := [(owner, t)]
  nextSymbol := 10
  nextReport := 0

theorem typesPlaces_of_plain {s : Session} (empty : s.program = .empty) (plain : ∀ entry ∈ s.variableTys, entry.2.leases = [])
    (typed : ∀ p ∈ places, ∃ t, s.placeTy? p = some t ∧ t.Definite arity) : s.TypesPlaces arity places where
  typed p listed := by
    obtain ⟨t, typed, definite⟩ := typed p listed
    obtain ⟨v, _, recorded⟩ := placeTy?_of_empty empty typed
    exact ⟨t, typed, definite, by rw [plain _ recorded]; exact List.nil_subset _⟩
  acyclic p _ cycle := by
    obtain ⟨_, ⟨u, typed, member⟩, _⟩ := TransGen.head'_iff.mp cycle
    obtain ⟨v, _, recorded⟩ := placeTy?_of_empty empty typed
    rw [plain _ recorded] at member
    cases member

theorem holding_typesPlaces {t : Ty} (definite : t.Definite fun _ => []) (plain : t.leases = []) :
    (holding t).TypesPlaces (fun _ => []) [.var owner] :=
  typesPlaces_of_plain rfl (List.forall_mem_singleton.mpr plain) (List.forall_mem_singleton.mpr ⟨t, rfl, definite⟩)

def forGeneric (t : Ty) : Substitution := ⟨[(generic, .ty t)]⟩

theorem lookup_forGeneric {t : Ty} {v : Variable} {u : Term} (found : (forGeneric t).lookup v = some u) :
    v = generic ∧ u = .ty t := by
  simp only [Substitution.lookup, forGeneric, List.reverse_singleton, List.find?_singleton,
    Option.map_eq_some_iff] at found
  obtain ⟨entry, found, rfl⟩ := found
  split at found
  · rename_i same
    cases found
    exact ⟨(decide_eq_true_eq.mp same).symm, rfl⟩
  · cases found

theorem instantiates_forGeneric {t : Ty} (definite : t.Definite arity) (empty : s.program = .empty)
    (program : s'.program = s.program) (places : List.Forall₂ (fun entry entry' => entry'.1 = entry.1 ∧
      entry.2.subst (forGeneric t) = .ok entry'.2) s.variableTys s'.variableTys) :
    s.Instantiates (forGeneric t) arity s' where
  fits v u found := by
    obtain ⟨rfl, rfl⟩ := lookup_forGeneric found
    exact definite
  program := program
  closed f t found := by
    rw [empty] at found
    cases found
  places v u found := by
    generalize s.variableTys = types, s'.variableTys = types' at places found
    induction places with
    | nil => cases found
    | @cons entry entry' _ _ first _ ih =>
      obtain ⟨_, _⟩ := entry
      obtain ⟨_, _⟩ := entry'
      obtain ⟨rfl, replaced⟩ := first
      simp only [List.lookup_cons] at found ⊢
      split at found
      · cases found
        exact ⟨_, replaced, rfl⟩
      · exact ih found

def copyGeneric : Env := { Env.root [] with assumptions := [(generic, .copy)] }

theorem forGeneric_leasesFrom {t : Ty} {places : List Place} (within : t.leases ⊆ places) :
    (forGeneric t).LeasesFrom places := fun v u found => by
  obtain ⟨rfl, rfl⟩ := lookup_forGeneric found
  exact within

theorem holds_instantiate_lease :
    (holding (.var generic)).Holds copyGeneric .copy (.ty (point.leasedFrom (.var owner))) ∧
      (holding (.perm .our point)).Holds (.root []) .copy (.ty (point.leasedFrom (.var owner))) := by
  have types : (holding (.var generic)).TypesPlaces (fun _ => []) [.var owner] :=
    holding_typesPlaces trivial rfl
  have types' : (holding (.perm .our point)).TypesPlaces (fun _ => []) [.var owner] :=
    holding_typesPlaces ⟨trivial, trivial⟩ rfl
  have instantiates : (holding (.var generic)).Instantiates (forGeneric (.perm .our point)) (fun _ => [])
    (holding (.perm .our point)) :=
    instantiates_forGeneric ⟨trivial, trivial⟩ rfl rfl (.cons ⟨rfl, rfl⟩ .nil)
  have lease : Term.Ground (fun _ => []) [.var owner] (.ty (point.leasedFrom (.var owner))) :=
    ⟨⟨trivial, trivial⟩, List.Subset.refl _⟩
  have before : (holding (.var generic)).Holds copyGeneric .copy (.ty (point.leasedFrom (.var owner))) :=
    ⟨_, 60, _, rfl, rfl, rfl, rfl⟩
  refine ⟨before, holds_instantiate types types' (List.Subset.refl _) instantiates
    (forGeneric_leasesFrom (List.nil_subset _)) (fun v p assumed => ?_) lease nofun rfl before⟩
  simp only [Env.assumes, copyGeneric, List.contains_cons, List.contains_nil, Bool.or_false,
    beq_iff_eq, Prod.mk.injEq] at assumed
  obtain ⟨rfl, rfl⟩ := assumed
  exact ⟨nofun, _, 20, _, rfl, rfl, rfl, rfl⟩

theorem leasing_instantiates {t : Ty} (definite : t.Definite fun _ => []) :
    leasing.Instantiates (forGeneric t) (fun _ => []) leasing :=
  instantiates_forGeneric definite rfl rfl (.cons ⟨rfl, rfl⟩ (.cons ⟨rfl, rfl⟩ .nil))

def genericAsShared : Obligation := ⟨.subtype default (.ty (.var generic)) (.ty (.perm .our (.var generic))), []⟩

theorem generic_below_shared : leasing.Subtype (.root []) genericAsShared (.var generic) (.perm .our (.var generic)) :=
  ⟨_, 60, _, rfl, rfl, rfl, rfl⟩

/-- `T` is below `our T`, but a leased point is not below a shared leased one: the type that replaces `T`
brings a lease along. -/
theorem leased_instance_not_below :
    leasing.TypesPlaces (fun _ => []) [.var owner, .var borrower] ∧
      leasing.Instantiates (forGeneric (point.leasedFrom (.var owner))) (fun _ => []) leasing ∧
      (Ty.var generic).subst (forGeneric (point.leasedFrom (.var owner))) =
        .ok (point.leasedFrom (.var owner)) ∧
      (Ty.perm .our (.var generic)).subst (forGeneric (point.leasedFrom (.var owner))) =
        .ok (.perm .our (point.leasedFrom (.var owner))) ∧
      leasing.Subtype (.root []) genericAsShared (.var generic) (.perm .our (.var generic)) ∧
      ¬ leasing.Subtype (.root []) genericAsShared (point.leasedFrom (.var owner))
        (.perm .our (point.leasedFrom (.var owner))) := by
  have refused : ∃ e last, (Goal.subTys (.root []) (point.leasedFrom (.var owner))
      (.perm .our (point.leasedFrom (.var owner))) genericAsShared).Yields leasing (.error e) last :=
    ⟨_, _, 60, _, rfl, rfl, rfl, rfl⟩
  refine ⟨leasing_typesPlaces, leasing_instantiates ⟨trivial, trivial⟩, rfl, rfl, generic_below_shared, fun below => ?_⟩
  obtain ⟨_, yields⟩ := below
  obtain ⟨_, _, yields'⟩ := refused
  cases (yields.unique yields').1

theorem forGeneric_unleased (s : Session) (env : Env) : s.Unleased env (forGeneric (.perm .our point)) := by
  rintro v w c (found | ⟨_, rfl⟩) _ chain
  · cases (lookup_forGeneric found).2
    cases chain
    exact .inr ⟨.our, [], rfl, rfl⟩
  · cases chain
    exact .inl rfl

theorem subtype_instantiate_shared :
    leasing.Subtype (.root []) genericAsShared (.var generic) (.perm .our (.var generic)) ∧
      leasing.Unleased (.root []) (forGeneric (.perm .our point)) ∧
      leasing.Subtype (.root []) genericAsShared (.perm .our point) (.perm .our (.perm .our point)) := by
  have instantiates : leasing.Instantiates (forGeneric (.perm .our point)) (fun _ => []) leasing :=
    leasing_instantiates ⟨trivial, trivial⟩
  have lower : Term.Ground (fun _ => []) [.var owner, .var borrower] (.ty (.var generic)) :=
    ⟨trivial, List.nil_subset _⟩
  have upper : Term.Ground (fun _ => []) [.var owner, .var borrower] (.ty (.perm .our (.var generic))) :=
    ⟨⟨trivial, trivial⟩, List.nil_subset _⟩
  refine ⟨generic_below_shared, forGeneric_unleased _ _, subtype_instantiate leasing_typesPlaces leasing_typesPlaces
    (List.Subset.refl _) instantiates (forGeneric_leasesFrom (List.nil_subset _)) (fun v p assumed => ?_)
    (forGeneric_unleased _ _) lower upper nofun rfl rfl generic_below_shared⟩
  exact nomatch assumed

/-- `x` holds a value of the type, and `y` a point. -/
def besidePoint (t : Ty) : Session := { holding t with variableTys := [(owner, t), (borrower, point)] }

def viewKinds : TyName → List Kind
  | .aggregate a => a.generics.map (·.kind)
  | _ => []

/-- `leased[y] View[leased[..]]`. -/
def viewFrom (places : List Place) : Ty :=
  .perm (.leased [.var borrower])
    (.aggregate ⟨3, "View", .structDecl, [⟨4, .perm, some "P", default⟩], default⟩ [.perm (.leased places)])

def widerView : Obligation :=
  ⟨.subtype default (.ty (viewFrom [.var owner])) (.ty (viewFrom [.var owner, .var borrower])), []⟩

theorem besidePoint_typesPlaces {t : Ty} (definite : t.Definite viewKinds) (plain : t.leases = []) :
    (besidePoint t).TypesPlaces viewKinds [.var owner, .var borrower] :=
  typesPlaces_of_plain rfl (List.forall_mem_cons.mpr ⟨plain, List.forall_mem_singleton.mpr rfl⟩)
    (List.forall_mem_cons.mpr ⟨⟨t, rfl, definite⟩, List.forall_mem_singleton.mpr ⟨point, rfl, trivial⟩⟩)

set_option maxRecDepth 2000 in
/-- A view of what `x` lends is below one of what `x` or `y` lends. As soon as `x` is copy, the first view is too and
drops its lease, and the second one keeps it. -/
theorem copied_place_not_below :
    (besidePoint (.var generic)).TypesPlaces viewKinds [.var owner, .var borrower] ∧
      (besidePoint (.perm .our point)).TypesPlaces viewKinds [.var owner, .var borrower] ∧
      (besidePoint (.var generic)).Instantiates (forGeneric (.perm .our point)) viewKinds (besidePoint (.perm .our point)) ∧
      (besidePoint (.perm .our point)).Unleased (.root []) (forGeneric (.perm .our point)) ∧
      (viewFrom [.var owner]).subst (forGeneric (.perm .our point)) = .ok (viewFrom [.var owner]) ∧
      (viewFrom [.var owner, .var borrower]).subst (forGeneric (.perm .our point)) =
        .ok (viewFrom [.var owner, .var borrower]) ∧
      (besidePoint (.var generic)).Subtype (.root []) widerView (viewFrom [.var owner]) (viewFrom [.var owner, .var borrower]) ∧
      ¬ (besidePoint (.perm .our point)).Subtype (.root []) widerView (viewFrom [.var owner])
        (viewFrom [.var owner, .var borrower]) := by
  have refused : ∃ e last, (Goal.subTys (.root []) (viewFrom [.var owner]) (viewFrom [.var owner, .var borrower])
      widerView).Yields (besidePoint (.perm .our point)) (.error e) last := ⟨_, _, 160, _, rfl, rfl, rfl, rfl⟩
  refine ⟨besidePoint_typesPlaces trivial rfl, besidePoint_typesPlaces ⟨trivial, trivial⟩ rfl, instantiates_forGeneric
    ⟨trivial, trivial⟩ rfl rfl (.cons ⟨rfl, rfl⟩ (.cons ⟨rfl, rfl⟩ .nil)), forGeneric_unleased _ _, rfl, rfl,
    ⟨_, 140, _, rfl, rfl, rfl, rfl⟩, fun below => ?_⟩
  obtain ⟨_, yields⟩ := below
  obtain ⟨_, _, yields'⟩ := refused
  cases (yields.unique yields').1

end Generics

end Session

end Ownership
