import Ownership.Proofs.Instances

namespace Ownership

namespace Chain

def through (c d : Chain) : Chain :=
  match d with
  | [] => c
  | l :: _ => if l.isCopy then d else c ++ d

def StartsCopy (c : Chain) : Prop := ∃ l rest, c = l :: rest ∧ l.isCopy = true

@[simp] theorem through_nil (c : Chain) : c.through [] = c := rfl

@[simp] theorem nil_through (d : Chain) : through [] d = d := by
  cases d with
  | nil => rfl
  | cons l d => simp [through]

variable {c d : Chain}

theorem through_of_copy (copy : d.StartsCopy) : c.through d = d := by
  obtain ⟨l, rest, rfl, copy⟩ := copy
  simp [through, copy]

theorem through_cons_of_moves {l : Lien} (moves : l.isCopy = false) : c.through (l :: d) = c ++ l :: d := by
  simp [through, moves]

theorem through_assoc (b c d : Chain) : (b.through c).through d = b.through (c.through d) := by
  cases d with
  | nil => rfl
  | cons l d =>
    cases copy : l.isCopy with
    | true =>
      have starts : StartsCopy (l :: d) := ⟨l, d, rfl, copy⟩
      simp only [through_of_copy starts]
    | false =>
      rw [through_cons_of_moves copy, through_cons_of_moves copy]
      cases c with
      | nil => simp [through_cons_of_moves copy]
      | cons m c =>
        cases copy' : m.isCopy with
        | true | false => simp [through, copy']

theorem push_through {e : Chain} {p : Perm} (pushed : d.push p = .ok e) : (c.through d).push p = .ok (c.through e) := by
  have snoc {l : Lien} (moves : l.isCopy = false) : c.through d ++ [l] = c.through (d ++ [l]) := by
    cases d with
    | nil => simp [through, moves]
    | cons m d => cases copy : m.isCopy <;> simp [through, copy]
  cases p <;> simp only [push, Except.ok.injEq, reduceCtorEq] at pushed ⊢ <;> subst pushed
  case leased => exact snoc rfl
  case var => exact snoc rfl
  case infer => exact snoc rfl
  all_goals rfl

theorem foldlM_through {e : Chain} {leaves : List Perm} (folded : leaves.foldlM push d = .ok e) :
    leaves.foldlM push (c.through d) = .ok (c.through e) := by
  induction leaves generalizing d with
  | nil =>
    cases folded
    rfl
  | cons p leaves ih =>
    rw [List.foldlM_cons] at folded ⊢
    obtain ⟨d', pushed, folded⟩ := Except.exists_of_bind folded
    rw [push_through pushed]
    exact ih folded

theorem ofPerm_apply {l r : Perm} (left : ofPerm l = .ok c) (right : ofPerm r = .ok d) :
    ofPerm (.apply l r) = .ok (c.through d) := by
  unfold ofPerm at left right ⊢
  rw [Perm.leaves, List.foldlM_append, left]
  exact foldlM_through (c := c) (d := []) right

theorem ofPerm_compose {l r : Perm} (left : ofPerm l = .ok c) (right : ofPerm r = .ok d) :
    ofPerm (l.compose r) = .ok (c.through d) := by
  rcases l.compose_cases r with ⟨rfl, same⟩ | ⟨rfl, same⟩ | same <;> rw [same]
  · cases left
    rw [nil_through]
    exact right
  · cases right
    exact left
  · exact ofPerm_apply left right

theorem mem_of_mem_through {l : Lien} (member : l ∈ c.through d) : l ∈ c ∨ l ∈ d := by
  unfold through at member
  split at member
  · exact .inl member
  · split at member
    · exact .inr member
    · exact List.mem_append.mp member

theorem leases_of_mem {p : Perm} {places : List Place} (definite : p.Definite)
    (found : ofPerm p = .ok c) (member : .leased places ∈ c) : places ⊆ p.leases := by
  induction p generalizing c with
  | apply l r left right =>
    obtain ⟨d, foundl⟩ := ofPerm_definite definite.1
    obtain ⟨e, foundr⟩ := ofPerm_definite definite.2
    rw [ofPerm_apply foundl foundr] at found
    cases found
    rcases mem_of_mem_through member with member | member
    · exact fun _ h => List.mem_append_left _ (left definite.1 foundl member h)
    · exact fun _ h => List.mem_append_right _ (right definite.2 foundr member h)
  | leased ps =>
    cases found
    cases List.mem_singleton.mp member
    exact List.Subset.refl _
  | my =>
    cases found
    cases member
  | infer | error => exact definite.elim
  | _ =>
    cases found
    cases List.mem_singleton.mp member

theorem sub_of_forall₂ (pairs : List.Forall₂ (fun l m => l.sub m = true) c d) : c.sub d = true := by
  induction pairs with
  | nil => rfl
  | cons first _ ih => simp [sub, first, ih]

/-- Chains are ordered lien by lien, apart from `my` below a plain copy permission. -/
theorem forall₂_of_sub (proper : d.Proper) (below : c.sub d = true) :
    List.Forall₂ (fun l m => l.sub m = true) c d ∨ c = [] ∧ ∃ l, d = [l] ∧ l.isCopy = true := by
  have tails {c d : Chain} (moves : ∀ l ∈ d, l.isCopy = false) (below : c.sub d = true) :
      List.Forall₂ (fun l m => l.sub m = true) c d := by
    induction c generalizing d with
    | nil =>
      rw [eq_nil_of_sub below moves]
      exact .nil
    | cons l c ih =>
      cases d with
      | nil => simp [sub] at below
      | cons m d =>
        simp only [sub, Bool.and_eq_true] at below
        exact .cons below.1 (ih (fun l member => moves l (List.mem_cons_of_mem _ member)) below.2)
  cases c with
  | cons l c =>
    cases d with
    | nil => simp [sub] at below
    | cons m d =>
      simp only [sub, Bool.and_eq_true] at below
      exact .inl (.cons below.1 (tails proper below.2))
  | nil =>
    cases d with
    | nil => exact .inl .nil
    | cons m d =>
      -- below a longer chain than a single copying lien there is no empty chain
      cases m <;> cases d <;> simp_all [sub, Lien.isCopy]

theorem Lien.isCopy_eq_of_sub {l m : Lien} (below : l.sub m = true) : l.isCopy = m.isCopy := by
  cases l <;> cases m <;> simp_all [Lien.sub, Lien.isCopy]

theorem forall₂_through {b e : Chain} (outer : List.Forall₂ (fun l m => l.sub m = true) b c)
    (inner : List.Forall₂ (fun l m => l.sub m = true) d e) :
    List.Forall₂ (fun l m => l.sub m = true) (b.through d) (c.through e) := by
  cases inner with
  | nil => exact outer
  | @cons l m d e first rest =>
    have same := Lien.isCopy_eq_of_sub first
    cases copy : l.isCopy with
    | true =>
      rw [through_of_copy ⟨l, d, rfl, copy⟩, through_of_copy ⟨m, e, rfl, same ▸ copy⟩]
      exact .cons first rest
    | false =>
      rw [through_cons_of_moves copy, through_cons_of_moves (same ▸ copy)]
      exact List.rel_append outer (.cons first rest)

end Chain

def Substitution.permOf (σ : Substitution) (v : Variable) : Perm :=
  match σ.lookup v with
  | some (.perm p) => p
  | _ => .var v

def Lien.subst (σ : Substitution) : Lien → Chain
  | .var v => (Chain.ofPerm (σ.permOf v)).toOption.getD []
  | l => [l]

def Chain.subst (σ : Substitution) (c : Chain) : Chain := c.foldl (fun d l => d.through (l.subst σ)) []

namespace Chain

variable {σ : Substitution} {arity : TyName → List Kind}

theorem foldl_through (c d : Chain) : c.foldl (fun d l => d.through (l.subst σ)) d = d.through (c.subst σ) := by
  induction c generalizing d with
  | nil => rfl
  | cons l c ih =>
    have flat : Chain.subst σ (l :: c) = (l.subst σ).through (Chain.subst σ c) := by
      unfold Chain.subst
      rw [List.foldl_cons, nil_through, ih]
      rfl
    rw [List.foldl_cons, ih, flat, through_assoc]

theorem subst_cons (l : Lien) (c : Chain) : Chain.subst σ (l :: c) = (l.subst σ).through (c.subst σ) := by
  unfold Chain.subst
  rw [List.foldl_cons, nil_through, foldl_through]
  rfl

theorem subst_append (c d : Chain) : Chain.subst σ (c ++ d) = (c.subst σ).through (d.subst σ) := by
  unfold Chain.subst
  rw [List.foldl_append, foldl_through]
  rfl

variable {c : Chain}

theorem StartsCopy.through {d : Chain} (copy : c.StartsCopy) : (c.through d).StartsCopy := by
  obtain ⟨l, rest, rfl, copy⟩ := copy
  cases d with
  | nil => exact ⟨l, rest, rfl, copy⟩
  | cons m d =>
    cases copy' : m.isCopy with
    | true => exact ⟨m, d, by simp [Chain.through, copy'], copy'⟩
    | false => exact ⟨l, rest ++ m :: d, by simp [Chain.through, copy'], copy⟩

theorem Lien.subst_of_copy {l : Lien} (copy : l.isCopy = true) : l.subst σ = [l] := by
  cases l <;> simp_all [Lien.subst, Lien.isCopy]

theorem subst_through (c d : Chain) : (c.through d).subst σ = (c.subst σ).through (d.subst σ) := by
  cases d with
  | nil => rfl
  | cons l d =>
    cases copy : l.isCopy with
    | true =>
      have starts : (Chain.subst σ (l :: d)).StartsCopy := by
        rw [subst_cons, Lien.subst_of_copy copy]
        exact StartsCopy.through ⟨l, [], rfl, copy⟩
      rw [through_of_copy ⟨l, d, rfl, copy⟩, through_of_copy starts]
    | false => rw [through_cons_of_moves copy, subst_append]

theorem ofPerm_instance (fits : σ.Fits arity) {p q : Perm} (inst : p.Instance σ q)
    (definite : p.Definite) (found : ofPerm p = .ok c) : ofPerm q = .ok (c.subst σ) := by
  induction p generalizing q c with
  | apply l r left right =>
    obtain ⟨l', r', first, second, same⟩ := inst
    obtain ⟨d, foundl⟩ := ofPerm_definite definite.1
    obtain ⟨e, foundr⟩ := ofPerm_definite definite.2
    rw [ofPerm_apply foundl foundr] at found
    cases found
    rw [subst_through]
    rcases same with rfl | rfl
    · exact ofPerm_apply (left first definite.1 foundl) (right second definite.2 foundr)
    · exact ofPerm_compose (left first definite.1 foundl) (right second definite.2 foundr)
  | var v =>
    cases found
    have own : q = σ.permOf v := by
      unfold Substitution.permOf
      rcases inst with found | ⟨free, rfl⟩
      · rw [found]
      · rw [free]
    obtain ⟨d, found⟩ := ofPerm_definite (Perm.Instance.definite fits inst definite)
    have flat : Chain.subst σ [.var v] = d := by
      simp only [Chain.subst, List.foldl_cons, List.foldl_nil, nil_through, Lien.subst, ← own, found]
      rfl
    exact flat ▸ found
  | infer | error => exact definite.elim
  | _ => cases inst; cases found; rfl

theorem Lien.forall₂_subst {l m : Lien} (below : l.sub m = true) :
    List.Forall₂ (fun l m => l.sub m = true) (l.subst σ) (m.subst σ) := by
  have refl (c : Chain) : List.Forall₂ (fun l m : Lien => l.sub m = true) c c :=
    List.forall₂_same.mpr fun l _ => l.sub_self
  cases l <;> cases m <;> simp only [Lien.sub, Bool.false_eq_true, decide_eq_true_eq] at below
  case our.our => exact refl _
  case our.shared => exact .cons rfl .nil
  case shared.shared => exact .cons below .nil
  case leased.leased => exact .cons below .nil
  case var.var => exact below ▸ refl _
  case infer.infer => exact below ▸ refl _

theorem forall₂_subst {d : Chain} (pairs : List.Forall₂ (fun l m => l.sub m = true) c d) :
    List.Forall₂ (fun l m => l.sub m = true) (c.subst σ) (d.subst σ) := by
  induction pairs with
  | nil => exact .nil
  | cons first _ ih =>
    rw [subst_cons, subst_cons]
    exact forall₂_through (Lien.forall₂_subst first) ih

theorem sub_subst {d : Chain} (proper : d.Proper) (below : c.sub d = true) : (c.subst σ).sub (d.subst σ) = true := by
  rcases forall₂_of_sub proper below with pairs | ⟨rfl, l, rfl, copy⟩
  · exact sub_of_forall₂ (forall₂_subst pairs)
  · have flat : Chain.subst σ [l] = [l] := by
      rw [subst_cons, Lien.subst_of_copy copy]
      rfl
    rw [flat]
    exact below

end Chain

theorem Perm.Below.instantiate {σ : Substitution} {arity : TyName → List Kind} (fits : σ.Fits arity)
    {p q p' q' : Perm} (below : p.Below q) (lower : p.Definite) (upper : q.Definite)
    (instp : p.Instance σ p') (instq : q.Instance σ q') : p'.Below q' := by
  obtain ⟨c, d, foundl, foundu, below⟩ := below
  exact ⟨_, _, Chain.ofPerm_instance fits instp lower foundl, Chain.ofPerm_instance fits instq upper foundu,
    Chain.sub_subst (Chain.proper_ofPerm foundu) below⟩

end Ownership
