import Ownership.Proofs.Instantiation
import Ownership.Proofs.Propagation
import Ownership.Proofs.Refutations

namespace Ownership

variable {p : Perm}

theorem Perm.ne_apply_of_mem_leaves {q l r : Perm} (leaf : q ∈ p.leaves) : q ≠ .apply l r := by
  induction p with
  | apply _ _ left right => exact (List.mem_append.mp leaf).elim left right
  | _ =>
    rw [List.mem_singleton.mp leaf]
    exact nofun

theorem Perm.definite_iff_leaves : p.Definite ↔ ∀ leaf ∈ p.leaves, leaf.Definite := by
  induction p with
  | apply _ _ left right => simp only [Definite, left, right, leaves, List.forall_mem_append]
  | _ => simp [leaves]

theorem Perm.mem_leases_iff {place : Place} : place ∈ p.leases ↔ ∃ leaf ∈ p.leaves, place ∈ leaf.leases := by
  induction p with
  | apply _ _ left right => simp only [leases, List.mem_append, left, right, leaves, or_and_right, exists_or]
  | _ => simp [leaves]

def Perm.isLien : Perm → Bool
  | .my => false
  | _ => true

theorem Perm.isLien_iff : p.isLien = true ↔ p ≠ .my := by
  cases p <;> simp [isLien]

theorem Lien.isLien_toPerm (l : Lien) : l.toPerm.isLien = true := by
  cases l <;> rfl

def Perm.replaces : Perm → Bool
  | .our => true
  | .shared _ => true
  | _ => false

namespace Chain

def replaced : List Perm → List Perm
  | [] => []
  | leaf :: rest => if rest.any Perm.replaces then leaf :: replaced rest else []

variable {leaf p : Perm} {leaves : List Perm} {c : Chain}

theorem mem_of_mem_replaced (member : leaf ∈ replaced leaves) : leaf ∈ leaves := by
  induction leaves with
  | nil => exact member
  | cons first rest ih =>
    rw [replaced] at member
    split at member
    · exact List.mem_cons.mpr ((List.mem_cons.mp member).imp_right ih)
    · cases member

theorem any_replaces_of_replaced (some_ : replaced leaves ≠ []) : leaves.any Perm.replaces = true := by
  cases leaves with
  | nil => exact absurd rfl some_
  | cons first rest =>
    rw [replaced] at some_
    split at some_
    · simp_all
    · exact absurd rfl some_

theorem push_cases {d : Chain} (flat : ∀ l r, leaf ≠ .apply l r) (pushed : push c leaf = .ok d) :
    leaf = .my ∧ d = c ∨ ∃ l : Lien, leaf = l.toPerm ∧ d = if leaf.replaces then [l] else c ++ [l] := by
  cases leaf <;> simp only [push, Except.ok.injEq, reduceCtorEq] at pushed
  case my => exact .inl ⟨rfl, pushed.symm⟩
  case our => exact .inr ⟨.our, rfl, pushed.symm⟩
  case shared ps => exact .inr ⟨.shared ps, rfl, pushed.symm⟩
  case leased ps => exact .inr ⟨.leased ps, rfl, pushed.symm⟩
  case apply l r => exact absurd rfl (flat l r)
  case infer i => exact .inr ⟨.infer i, rfl, pushed.symm⟩
  case var v => exact .inr ⟨.var v, rfl, pushed.symm⟩

theorem foldlM_split {d : Chain} (flat : ∀ leaf ∈ leaves, ∀ l r, leaf ≠ .apply l r)
    (folded : leaves.foldlM push c = .ok d) :
    c.map Lien.toPerm ++ leaves.filter Perm.isLien =
      (if leaves.any Perm.replaces then c.map Lien.toPerm ++ (replaced leaves).filter Perm.isLien else []) ++
        d.map Lien.toPerm := by
  induction leaves generalizing c with
  | nil =>
    cases folded
    simp
  | cons leaf rest ih =>
    rw [List.foldlM_cons] at folded
    obtain ⟨c', pushed, folded⟩ := Except.exists_of_bind folded
    have later := ih (fun leaf member => flat leaf (List.mem_cons_of_mem _ member)) folded
    by_cases again : rest.any Perm.replaces = true
    · -- whatever the first leaf does is replaced later on
      rw [if_pos again, List.append_assoc, List.append_cancel_left_eq] at later
      cases lien : leaf.isLien <;> simp [replaced, again, lien, later]
    · rw [if_neg again, List.nil_append] at later
      rw [← later]
      rcases push_cases (flat leaf List.mem_cons_self) pushed with ⟨rfl, rfl⟩ | ⟨l, rfl, rfl⟩
      · simp [again, Perm.replaces, Perm.isLien]
      · cases resets : l.toPerm.replaces <;> simp [replaced, again, resets, l.isLien_toPerm]

theorem filter_leaves (found : ofPerm p = .ok c) :
    p.leaves.filter Perm.isLien = (replaced p.leaves).filter Perm.isLien ++ c.map Lien.toPerm := by
  have split := foldlM_split (fun _ leaf _ _ => Perm.ne_apply_of_mem_leaves leaf) found
  by_cases some_ : p.leaves.any Perm.replaces = true
  · simpa [some_] using split
  · have none_ : replaced p.leaves = [] := by
      by_contra more
      exact some_ (any_replaces_of_replaced more)
    simpa [some_, none_] using split

theorem leaves_toPerm (c : Chain) : c.toPerm.leaves.filter Perm.isLien = c.map Lien.toPerm := by
  cases c with
  | nil => rfl
  | cons l c =>
    have leaf (l : Lien) : l.toPerm.leaves = [l.toPerm] := by cases l <;> rfl
    rw [toPerm, leaves_foldl, leaf, List.filter_eq_self.mpr]
    · rfl
    · simp [Lien.isLien_toPerm]

theorem mem_leaves_of_mem (found : ofPerm p = .ok c) (member : leaf ∈ c.toPerm.leaves)
    (lien : leaf.isLien = true) : leaf ∈ p.leaves := by
  have kept : leaf ∈ c.map Lien.toPerm := by
    rw [← leaves_toPerm]
    exact List.mem_filter.mpr ⟨member, lien⟩
  have among := List.mem_append_right ((replaced p.leaves).filter Perm.isLien) kept
  rw [← filter_leaves found] at among
  exact (List.mem_filter.mp among).1

theorem definite_toPerm (definite : p.Definite) (found : ofPerm p = .ok c) : c.toPerm.Definite := by
  rw [Perm.definite_iff_leaves] at definite ⊢
  intro leaf member
  by_cases my : leaf = .my
  · rw [my]
    trivial
  · exact definite leaf (mem_leaves_of_mem found member (Perm.isLien_iff.mpr my))

theorem leases_toPerm (found : ofPerm p = .ok c) : c.toPerm.leases ⊆ p.leases := by
  intro place leased
  obtain ⟨leaf, member, leases⟩ := Perm.mem_leases_iff.mp leased
  have lien : leaf.isLien = true := by
    rw [Perm.isLien_iff]
    rintro rfl
    cases leases
  exact Perm.mem_leases_iff.mpr ⟨leaf, mem_leaves_of_mem found member lien, leases⟩

theorem foldlM_replaces {d : Chain} (flat : ∀ leaf ∈ leaves, ∀ l r, leaf ≠ .apply l r)
    (folded : leaves.foldlM push c = .ok d) (some_ : (c.map Lien.toPerm ++ leaves).any Perm.replaces = true) :
    (d.map Lien.toPerm).any Perm.replaces = true := by
  induction leaves generalizing c with
  | nil =>
    cases folded
    simpa using some_
  | cons leaf rest ih =>
    rw [List.foldlM_cons] at folded
    obtain ⟨c', pushed, folded⟩ := Except.exists_of_bind folded
    refine ih (fun leaf member => flat leaf (List.mem_cons_of_mem _ member)) folded ?_
    rcases push_cases (flat leaf List.mem_cons_self) pushed with ⟨rfl, rfl⟩ | ⟨l, rfl, rfl⟩
    · simpa [Perm.replaces] using some_
    · cases resets : l.toPerm.replaces <;> simp_all

theorem any_replaces_toPerm (found : ofPerm p = .ok c) (some_ : replaced p.leaves ≠ []) :
    (c.map Lien.toPerm).any Perm.replaces = true :=
  foldlM_replaces (fun _ leaf _ _ => Perm.ne_apply_of_mem_leaves leaf) found (any_replaces_of_replaced some_)

end Chain

namespace Session

variable {s : Session} {env : Env} {p : Predicate} {places : List Place}

/-- Some leaf has the predicate, or all have it, whichever makes a permission of them have it. -/
def ProvesLeaves (s : Session) (env : Env) (p : Predicate) (leaves : List Perm) : Prop :=
  if p.isDisjunctive then ∃ leaf ∈ leaves, s.Proves env p (.perm leaf) else ∀ leaf ∈ leaves, s.Proves env p (.perm leaf)

variable {leaves : List Perm} {q : Perm} {c : Chain} {g : Goal .truth} {P : Prop}

theorem provesLeaves_either (either : p.isDisjunctive = true) :
    s.ProvesLeaves env p leaves ↔ ∃ leaf ∈ leaves, s.Proves env p (.perm leaf) := by
  simp [ProvesLeaves, either]

theorem provesLeaves_both (both : p.isDisjunctive = false) :
    s.ProvesLeaves env p leaves ↔ ∀ leaf ∈ leaves, s.Proves env p (.perm leaf) := by
  simp [ProvesLeaves, both]

theorem proves_iff_leaves : s.Proves env p (.perm q) ↔ s.ProvesLeaves env p q.leaves := by
  induction q with
  | apply l r left right =>
    cases joined : p.isDisjunctive
    · rw [proves_apply_both joined, left, right]
      simp only [provesLeaves_both joined, Perm.leaves, List.forall_mem_append]
    · rw [proves_apply_either joined, left, right]
      simp [provesLeaves_either joined, Perm.leaves, or_and_right, exists_or]
  | _ => cases joined : p.isDisjunctive <;> simp [ProvesLeaves, joined, Perm.leaves]

theorem provesLeaves_append_either {xs ys : List Perm} (either : p.isDisjunctive = true) :
    s.ProvesLeaves env p (xs ++ ys) ↔ s.ProvesLeaves env p xs ∨ s.ProvesLeaves env p ys := by
  simp only [provesLeaves_either either, List.mem_append, or_and_right, exists_or]

theorem provesLeaves_append_both {xs ys : List Perm} (both : p.isDisjunctive = false) :
    s.ProvesLeaves env p (xs ++ ys) ↔ s.ProvesLeaves env p xs ∧ s.ProvesLeaves env p ys := by
  simp only [provesLeaves_both both, List.forall_mem_append]

theorem provesLeaves_filter : s.ProvesLeaves env p (leaves.filter Perm.isLien) ↔ s.ProvesLeaves env p leaves := by
  have my : s.Proves env p (.perm .my) ↔ p.isDisjunctive = false := by cases p <;> simp [Predicate.isDisjunctive, Predicate.ofMy]
  cases joined : p.isDisjunctive
  · simp only [provesLeaves_both joined, List.mem_filter, Perm.isLien_iff]
    refine ⟨fun all leaf member => ?_, fun all leaf member => all leaf member.1⟩
    by_cases same : leaf = .my
    · exact same ▸ my.mpr joined
    · exact all leaf ⟨member, same⟩
  · simp only [provesLeaves_either joined, List.mem_filter, Perm.isLien_iff]
    constructor
    · rintro ⟨leaf, member, holds⟩
      exact ⟨leaf, member.1, holds⟩
    · rintro ⟨leaf, member, holds⟩
      refine ⟨leaf, ⟨member, ?_⟩, holds⟩
      rintro rfl
      simp [my, joined] at holds

theorem provesLeaves_split (found : Chain.ofPerm q = .ok c) :
    s.Proves env p (.perm q) ↔
      s.ProvesLeaves env p ((Chain.replaced q.leaves).filter Perm.isLien ++ c.map Lien.toPerm) := by
  rw [proves_iff_leaves, ← provesLeaves_filter, Chain.filter_leaves found]

theorem proves_toPerm : s.Proves env p (.perm c.toPerm) ↔ s.ProvesLeaves env p (c.map Lien.toPerm) := by
  rw [proves_iff_leaves, ← provesLeaves_filter, Chain.leaves_toPerm]

theorem proves_split_either (found : Chain.ofPerm q = .ok c) (either : p.isDisjunctive = true) :
    s.Proves env p (.perm q) ↔
      (∃ leaf ∈ Chain.replaced q.leaves, s.Proves env p (.perm leaf)) ∨ s.Proves env p (.perm c.toPerm) := by
  rw [provesLeaves_split found, provesLeaves_append_either either, provesLeaves_filter, provesLeaves_either either,
    proves_toPerm]

theorem proves_split_both (found : Chain.ofPerm q = .ok c) (both : p.isDisjunctive = false) :
    s.Proves env p (.perm q) ↔
      (∀ leaf ∈ Chain.replaced q.leaves, s.Proves env p (.perm leaf)) ∧ s.Proves env p (.perm c.toPerm) := by
  rw [provesLeaves_split found, provesLeaves_append_both both, provesLeaves_filter, provesLeaves_both both,
    proves_toPerm]

theorem copy_of_replaces (some_ : (c.map Lien.toPerm).any Perm.replaces = true) :
    s.Proves env .copy (.perm c.toPerm) ∧ ¬ s.Proves env .move (.perm c.toPerm) := by
  obtain ⟨leaf, member, resets⟩ := List.any_eq_true.mp some_
  have decided : s.Proves env .copy (.perm leaf) ∧ ¬ s.Proves env .move (.perm leaf) := by
    cases leaf <;> simp_all [Perm.replaces, Predicate.ofOur, Predicate.ofShared]
  rw [proves_toPerm, provesLeaves_either rfl, proves_toPerm, provesLeaves_both rfl]
  exact ⟨⟨leaf, member, decided.1⟩, fun all => decided.2 (all leaf member)⟩

/-- Whether a permission is copy or move depends on its chain only. -/
theorem proves_iff_toPerm (found : Chain.ofPerm q = .ok c) (depends : p = .copy ∨ p = .move) :
    s.Proves env p (.perm q) ↔ s.Proves env p (.perm c.toPerm) := by
  by_cases none_ : Chain.replaced q.leaves = []
  · rw [provesLeaves_split found, none_, List.filter_nil, List.nil_append, proves_toPerm]
  · have decided : s.Proves env .copy (.perm c.toPerm) ∧ ¬ s.Proves env .move (.perm c.toPerm) :=
      copy_of_replaces (Chain.any_replaces_toPerm found none_)
    rcases depends with rfl | rfl
    · rw [proves_split_either found rfl]
      simp [decided.1]
    · rw [proves_split_both found rfl]
      simp [decided.2]

theorem answers_false_iff (decided : ∃ b, s.Answers g b ∧ (b = true ↔ P)) : s.Answers g false ↔ ¬ P := by
  obtain ⟨b, answers, holds⟩ := decided
  rw [← holds, Bool.not_eq_true]
  exact ⟨fun no => answers.unique no, fun no => no ▸ answers⟩

theorem answers_alike_iff {h : Goal .truth} {Q : Prop} (first : ∃ b, s.Answers g b ∧ (b = true ↔ P))
    (second : ∃ b, s.Answers h b ∧ (b = true ↔ Q)) : (∃ b, s.Answers g b ∧ s.Answers h b) ↔ (P ↔ Q) := by
  obtain ⟨b, answers, holds⟩ := first
  obtain ⟨c, answers', holds'⟩ := second
  rw [← holds, ← holds', ← Bool.eq_iff_iff]
  constructor
  · rintro ⟨d, one, other⟩
    rw [answers.unique one, answers'.unique other]
  · rintro rfl
    exact ⟨b, answers, answers'⟩

/-- Whether a permission is copy and whether it is move is told by its chain. -/
theorem copy_and_move_of_chain (types : s.BarePlaces places) (env : Env) {q r : Perm} (definite : q.Definite)
    (definite' : r.Definite) (within : q.leases ⊆ places) (within' : r.leases ⊆ places)
    (same : Chain.ofPerm q = Chain.ofPerm r) :
    ∃ c, Chain.ofPerm q = .ok c ∧ ∀ p, p = .copy ∨ p = .move →
      ∃ b, s.Answers (.holds env p (.perm q)) b ∧ s.Answers (.holds env p (.perm r)) b ∧
        s.Answers (.holds env p (.perm c.toPerm)) b := by
  obtain ⟨c, found⟩ := Chain.ofPerm_definite definite
  have found' : Chain.ofPerm r = .ok c := same ▸ found
  refine ⟨c, found, fun p depends => ?_⟩
  obtain ⟨b, answers, holds⟩ := answers_holds env (p := p) (t := .perm c.toPerm)
    (Chain.definite_toPerm definite found) types fun _ leased => within (Chain.leases_toPerm found leased)
  obtain ⟨d, answers', holds'⟩ := answers_holds env (p := p) (t := .perm q) definite types within
  obtain ⟨e, answers'', holds''⟩ := answers_holds env (p := p) (t := .perm r) definite' types within'
  obtain rfl : d = b := Bool.eq_iff_iff.mpr (holds'.trans ((proves_iff_toPerm found depends).trans holds.symm))
  obtain rfl : e = d := Bool.eq_iff_iff.mpr (holds''.trans ((proves_iff_toPerm found' depends).trans holds.symm))
  exact ⟨e, answers', answers'', answers⟩

theorem copy_and_move_of_chain_leasing :
    leasing.BarePlaces [.var owner, .var borrower] ∧
      Chain.ofPerm (.apply (.leased [.var borrower]) (.apply .our .my)) = Chain.ofPerm .our ∧
      ∃ c, Chain.ofPerm .our = .ok c ∧ leasing.Answers (.holds (.root []) .copy (.perm c.toPerm)) true ∧
        leasing.Answers (.holds (.root []) .move (.perm c.toPerm)) false := by
  have within : [Place.var borrower] ⊆ [.var owner, .var borrower] := List.subset_cons_self _ _
  obtain ⟨c, found, alike⟩ := copy_and_move_of_chain (q := .apply (.leased [.var borrower]) (.apply .our .my))
    (r := .our) leasing_barePlaces (.root []) ⟨trivial, trivial, trivial⟩ trivial within (List.nil_subset _) rfl
  obtain ⟨b, copy, _, chain⟩ := alike .copy (.inl rfl)
  obtain ⟨d, move, _, chain'⟩ := alike .move (.inr rfl)
  obtain rfl : b = true := copy.unique ⟨leasing, 120, _, rfl, rfl, rfl, rfl⟩
  obtain rfl : d = false := move.unique ⟨leasing, 120, _, rfl, rfl, rfl, rfl⟩
  exact ⟨leasing_barePlaces, rfl, c, found, chain, chain'⟩

theorem yields_of_perm_below {r : Perm} (o : Obligation) (definite : q.Definite) (definite' : r.Definite)
    (below : q.Below r) : ∃ last, (Goal.subPerms env q r o).Yields s (.ok ()) last := by
  have sure : s.Sure env True (.subPerms env q r o) := sure_perms definite definite' fun _ => below
  obtain ⟨_, last, _, _, yields, _, ⟨rfl, _⟩ | ⟨loud, _⟩, _⟩ :=
    Goal.yields_of_settles id ground_start fun w leads => sure w leads.sound
  · exact ⟨last, yields⟩
  · exact absurd trivial loud

theorem or_congr_left_iff {Q R : Prop} : (P ∨ R ↔ Q ∨ R) ↔ (¬ R → (P ↔ Q)) := by
  by_cases R <;> simp [*]

/-- Permissions with the same chain are below each other. Still, they are owned alike only if what is replaced in
one and in the other is, and lent alike likewise, unless their chain settles it. -/
theorem ownership_alike_iff (s : Session) (env : Env) (o : Obligation) {q r : Perm} {c : Chain} (definite : q.Definite)
    (definite' : r.Definite) (found : Chain.ofPerm q = .ok c) (found' : Chain.ofPerm r = .ok c) :
    (∃ last, (Goal.subPerms env q r o).Yields s (.ok ()) last) ∧
    (∃ last, (Goal.subPerms env r q o).Yields s (.ok ()) last) ∧
    ((∃ b, s.Answers (.holds env .owned (.perm q)) b ∧ s.Answers (.holds env .owned (.perm r)) b) ↔
      (s.Answers (.holds env .owned (.perm c.toPerm)) true →
        ((∀ leaf ∈ Chain.replaced q.leaves, s.Answers (.holds env .owned (.perm leaf)) true) ↔
          ∀ leaf ∈ Chain.replaced r.leaves, s.Answers (.holds env .owned (.perm leaf)) true))) ∧
    ((∃ b, s.Answers (.holds env .lent (.perm q)) b ∧ s.Answers (.holds env .lent (.perm r)) b) ↔
      (s.Answers (.holds env .lent (.perm c.toPerm)) false →
        ((∃ leaf ∈ Chain.replaced q.leaves, s.Answers (.holds env .lent (.perm leaf)) true) ↔
          ∃ leaf ∈ Chain.replaced r.leaves, s.Answers (.holds env .lent (.perm leaf)) true))) := by
  have below : q.Below r := ⟨c, c, found, found', c.sub_self⟩
  have above : r.Below q := ⟨c, c, found', found, c.sub_self⟩
  have chain : c.toPerm.Definite := Chain.definite_toPerm definite found
  refine ⟨yields_of_perm_below o definite definite' below, yields_of_perm_below o definite' definite above, ?_, ?_⟩
  · have told {x : Perm} (definite : x.Definite) := answers_own (s := s) env (t := .perm x) definite (.inl rfl)
    have leaves {x : Perm} (definite : x.Definite) :
        (∀ leaf ∈ Chain.replaced x.leaves, s.Answers (.holds env .owned (.perm leaf)) true) ↔
          ∀ leaf ∈ Chain.replaced x.leaves, s.Proves env .owned (.perm leaf) :=
      forall₂_congr fun leaf member => answers_true_iff
        (told (Perm.definite_iff_leaves.mp definite leaf (Chain.mem_of_mem_replaced member)))
    rw [answers_alike_iff (told definite) (told definite'), answers_true_iff (told chain), leaves definite,
      leaves definite', proves_split_both found rfl, proves_split_both found' rfl, and_congr_left_iff]
  · have told {x : Perm} (definite : x.Definite) := answers_own (s := s) env (t := .perm x) definite (.inr rfl)
    have leaves {x : Perm} (definite : x.Definite) :
        (∃ leaf ∈ Chain.replaced x.leaves, s.Answers (.holds env .lent (.perm leaf)) true) ↔
          ∃ leaf ∈ Chain.replaced x.leaves, s.Proves env .lent (.perm leaf) :=
      exists_congr fun leaf => and_congr_right fun member => answers_true_iff
        (told (Perm.definite_iff_leaves.mp definite leaf (Chain.mem_of_mem_replaced member)))
    rw [answers_alike_iff (told definite) (told definite'), answers_false_iff (told chain), leaves definite,
      leaves definite', proves_split_either found rfl, proves_split_either found' rfl, or_congr_left_iff]

def viewAsShared : Obligation := ⟨.subtype default (.perm (.apply (.shared [.var owner]) .our)) (.perm .our), []⟩

theorem ownership_parts_leasing :
    Chain.ofPerm (.apply (.shared [.var owner]) .our) = Chain.ofPerm .our ∧
      (∃ last, (Goal.subPerms (.root []) (.apply (.shared [.var owner]) .our) .our viewAsShared).Yields leasing (.ok ()) last) ∧
      (∃ last, (Goal.subPerms (.root []) .our (.apply (.shared [.var owner]) .our) viewAsShared).Yields leasing (.ok ()) last) ∧
      leasing.Answers (.holds (.root []) .owned (.perm (.apply (.shared [.var owner]) .our))) false ∧
      leasing.Answers (.holds (.root []) .owned (.perm .our)) true ∧
      leasing.Answers (.holds (.root []) .lent (.perm (.apply (.shared [.var owner]) .our))) true ∧
      leasing.Answers (.holds (.root []) .lent (.perm .our)) false :=
  ⟨rfl, ⟨leasing, 60, _, rfl, rfl, rfl, rfl⟩, ⟨leasing, 60, _, rfl, rfl, rfl, rfl⟩,
    ⟨leasing, 60, _, rfl, rfl, rfl, rfl⟩, ⟨leasing, 60, _, rfl, rfl, rfl, rfl⟩,
    ⟨leasing, 60, _, rfl, rfl, rfl, rfl⟩, ⟨leasing, 60, _, rfl, rfl, rfl, rfl⟩⟩

theorem ownership_alike_iff_leasing :
    Chain.ofPerm (.apply (.shared [.var owner]) .our) = .ok [.our] ∧
      Chain.ofPerm (.apply (.leased [.var borrower]) .our) = .ok [.our] ∧
      (∃ b, leasing.Answers (.holds (.root []) .owned (.perm (.apply (.shared [.var owner]) .our))) b ∧
        leasing.Answers (.holds (.root []) .owned (.perm (.apply (.leased [.var borrower]) .our))) b) ∧
      ∃ b, leasing.Answers (.holds (.root []) .lent (.perm (.apply (.shared [.var owner]) .our))) b ∧
        leasing.Answers (.holds (.root []) .lent (.perm (.apply (.leased [.var borrower]) .our))) b := by
  obtain ⟨_, _, owned, lent⟩ := ownership_alike_iff leasing (.root []) viewAsShared (c := [.our])
    (q := .apply (.shared [.var owner]) .our) (r := .apply (.leased [.var borrower]) .our) ⟨trivial, trivial⟩
    ⟨trivial, trivial⟩ rfl rfl
  refine ⟨rfl, rfl, owned.mpr fun _ => iff_of_false ?_ ?_, lent.mpr fun _ => iff_of_true ?_ ?_⟩
  · intro all
    cases (all (.shared [.var owner]) (.head _)).unique ⟨leasing, 60, _, rfl, rfl, rfl, rfl⟩
  · intro all
    cases (all (.leased [.var borrower]) (.head _)).unique ⟨leasing, 60, _, rfl, rfl, rfl, rfl⟩
  · exact ⟨.shared [.var owner], .head _, leasing, 60, _, rfl, rfl, rfl, rfl⟩
  · exact ⟨.leased [.var borrower], .head _, leasing, 60, _, rfl, rfl, rfl, rfl⟩

section Opposites

variable (apart : ∀ v p, ¬ (env.assumes v p = true ∧ env.assumes v p.opposite = true))
include apart

theorem leased_of_copy_move {leaf : Perm} (flat : ∀ l r, leaf ≠ .apply l r) (copy : s.Proves env .copy (.perm leaf))
    (move : s.Proves env .move (.perm leaf)) :
    ∃ ps, leaf = .leased ps ∧ ∀ place ∈ ps, s.Proves env .copy (.place place) ∧ s.Proves env .move (.place place) := by
  cases leaf with
  | my => simp [Predicate.ofMy] at copy
  | our => simp [Predicate.ofOur] at move
  | shared _ => simp [Predicate.ofShared] at move
  | leased ps =>
    rw [proves_leased (.inl rfl)] at copy
    rw [proves_leased (.inr rfl)] at move
    exact ⟨ps, rfl, fun place member => ⟨copy place member, move place member⟩⟩
  | apply l r => exact absurd rfl (flat l r)
  | var v => exact (apart v .copy ⟨proves_permVar.mp copy, proves_permVar.mp move⟩).elim
  | infer _ | error _ => cases copy

theorem copy_move_iff :
    s.Proves env .copy (.perm q) ∧ s.Proves env .move (.perm q) ↔
      s.Proves env .move (.perm q) ∧ ∃ ps, .leased ps ∈ q.leaves ∧
        ∀ place ∈ ps, s.Proves env .copy (.place place) ∧ s.Proves env .move (.place place) := by
  constructor
  · rintro ⟨copy, move⟩
    obtain ⟨leaf, member, copyLeaf⟩ := (provesLeaves_either rfl).mp (proves_iff_leaves.mp copy)
    have moveLeaf := (provesLeaves_both rfl).mp (proves_iff_leaves.mp move) leaf member
    obtain ⟨ps, rfl, both⟩ :=
      leased_of_copy_move apart (fun _ _ => Perm.ne_apply_of_mem_leaves member) copyLeaf moveLeaf
    exact ⟨move, ps, member, both⟩
  · rintro ⟨move, ps, member, both⟩
    have copy : s.Proves env .copy (.perm (.leased ps)) :=
      (proves_leased (.inl rfl)).mpr fun place member => (both place member).1
    exact ⟨proves_iff_leaves.mpr ((provesLeaves_either rfl).mpr ⟨_, member, copy⟩), move⟩

end Opposites

/-- A permission is never owned and lent at once, if no variable is assumed to have opposite predicates. It is copy
and move at once just if it is move and leases from places that all have types that are both. -/
theorem opposites_hold_iff (types : s.BarePlaces places) (env : Env)
    (apart : ∀ v p, ¬ (env.assumes v p = true ∧ env.assumes v p.opposite = true)) {q : Perm}
    (definite : q.Definite) (within : q.leases ⊆ places) (p : Predicate) :
    s.Answers (.holds env p (.perm q)) true ∧ s.Answers (.holds env p.opposite (.perm q)) true ↔
      (p = .copy ∨ p = .move) ∧ s.Answers (.holds env .move (.perm q)) true ∧
        ∃ ps, .leased ps ∈ q.leaves ∧ ∀ place ∈ ps, ∃ t, s.placeTy? place = some t ∧
          s.Answers (.holds env .copy (.ty t)) true ∧ s.Answers (.holds env .move (.ty t)) true := by
  have told (p : Predicate) := answers_true_iff (answers_holds env (p := p) (t := .perm q) definite types within)
  have leases : (∃ ps, .leased ps ∈ q.leaves ∧ ∀ place ∈ ps, s.Proves env .copy (.place place) ∧
      s.Proves env .move (.place place)) ↔ ∃ ps, .leased ps ∈ q.leaves ∧ ∀ place ∈ ps,
        ∃ t, s.placeTy? place = some t ∧ s.Answers (.holds env .copy (.ty t)) true ∧
          s.Answers (.holds env .move (.ty t)) true := by
    refine exists_congr fun ps => and_congr_right fun leaf => forall₂_congr fun place member => ?_
    obtain ⟨t, typed, bare, inside⟩ := types.typed place (within (Perm.mem_leases_iff.mpr ⟨_, leaf, member⟩))
    have told (p : Predicate) := answers_true_iff (answers_holds env (p := p) (t := .ty t) bare types inside)
    simp only [proves_place typed, typed, told, Option.some.injEq, exists_eq_left']
  rw [told, told, told, ← leases, ← copy_move_iff apart]
  cases p with
  | copy => simp [Predicate.opposite]
  | move => simp [Predicate.opposite, and_comm]
  | owned =>
    simp only [Predicate.opposite, reduceCtorEq, or_self, false_and, iff_false, not_and]
    exact fun owned => owned.not_lent fun v => apart v .owned
  | lent =>
    simp only [Predicate.opposite, reduceCtorEq, or_self, false_and, iff_false, not_and]
    exact fun lent owned => owned.not_lent (fun v => apart v .owned) lent

theorem opposites_hold_iff_leasing :
    leasing.BarePlaces [.var owner, .var borrower] ∧
      (∀ v p, ¬ ((Env.root []).assumes v p = true ∧ (Env.root []).assumes v p.opposite = true)) ∧
      ¬ (leasing.Answers (.holds (.root []) .copy (.perm (.leased [.var borrower]))) true ∧
        leasing.Answers (.holds (.root []) .move (.perm (.leased [.var borrower]))) true) := by
  have apart : ∀ v p, ¬ ((Env.root []).assumes v p = true ∧ (Env.root []).assumes v p.opposite = true) := nofun
  have within : [Place.var borrower] ⊆ [.var owner, .var borrower] := List.subset_cons_self _ _
  refine ⟨leasing_barePlaces, apart, fun both => ?_⟩
  obtain ⟨_, _, ps, leaf, reached⟩ :=
    (opposites_hold_iff (q := .leased [.var borrower]) leasing_barePlaces (.root []) apart trivial within .copy).mp both
  cases List.mem_singleton.mp leaf
  obtain ⟨t, typed, copy, _⟩ := reached (.var borrower) (.head _)
  cases typed
  cases copy.unique ⟨leasing, 60, _, rfl, rfl, rfl, rfl⟩

/-- `x` is a number with a point. -/
def pairing : Session :=
  { leasing with variableTys := [(owner, .tuple [.ty (.primitive .u32), .ty point])] }

/-- What is leased from a number with a point is copy and move at once. -/
theorem lease_is_copy_and_move :
    pairing.placeTy? (.var owner) = some (.tuple [.ty (.primitive .u32), .ty point]) ∧
      (∀ v p, ¬ ((Env.root []).assumes v p = true ∧ (Env.root []).assumes v p.opposite = true)) ∧
      Perm.Definite (.leased [.var owner]) ∧
      pairing.Answers (.holds (.root []) .copy (.perm (.leased [.var owner]))) true ∧
      pairing.Answers (.holds (.root []) .move (.perm (.leased [.var owner]))) true :=
  ⟨rfl, nofun, trivial, ⟨pairing, 60, _, rfl, rfl, rfl, rfl⟩, ⟨pairing, 60, _, rfl, rfl, rfl, rfl⟩⟩

end Session

end Ownership
