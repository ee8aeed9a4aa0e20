import Mathlib.Logic.Relation
import Ownership.Proofs.ChainTests

namespace Ownership

open Relation (EqvGen)

namespace Perm

def ErrorFree (p : Perm) : Prop := ∀ r, .error r ∉ p.leaves

/-- The second permission has an application of the first one grouped to the right, or lacks one of its
`my`. -/
inductive Regroups : Perm → Perm → Prop where
  | assoc (p q r : Perm) : Regroups (.apply (.apply p q) r) (.apply p (.apply q r))
  | myFirst (p : Perm) : Regroups (.apply .my p) p
  | myLast (p : Perm) : Regroups (.apply p .my) p
  | left {p p' : Perm} (q : Perm) : Regroups p p' → Regroups (.apply p q) (.apply p' q)
  | right (p : Perm) {q q' : Perm} : Regroups q q' → Regroups (.apply p q) (.apply p q')

end Perm

namespace Chain

theorem push_eq_error_iff {c : Chain} {p : Perm} {r : Report} : c.push p = .error r ↔ p = .error r := by
  cases p <;> simp [push]

theorem foldlM_eq_error_iff {c : Chain} {leaves : List Perm} {r : Report} :
    leaves.foldlM push c = .error r ↔
      ∃ before after, leaves = before ++ .error r :: after ∧ ∀ e, .error e ∉ before := by
  induction leaves generalizing c with
  | nil => simp [pure, Except.pure]
  | cons leaf leaves ih =>
    rw [List.foldlM_cons]
    cases pushed : c.push leaf with
    | error e =>
      obtain rfl := push_eq_error_iff.mp pushed
      constructor
      · intro failed
        cases failed
        exact ⟨[], leaves, rfl, fun _ => List.not_mem_nil⟩
      · rintro ⟨_ | ⟨first, before⟩, after, split, clean⟩
        · cases split
          rfl
        · cases split
          exact absurd List.mem_cons_self (clean e)
    | ok d =>
      have plain (e : Report) : leaf ≠ .error e := fun same =>
        nomatch (push_eq_error_iff.mpr same).symm.trans pushed
      refine (ih (c := d)).trans ⟨?_, ?_⟩
      · rintro ⟨before, after, rfl, clean⟩
        refine ⟨leaf :: before, after, rfl, fun e member => ?_⟩
        rcases List.mem_cons.mp member with same | member
        · exact plain e same.symm
        · exact clean e member
      · rintro ⟨_ | ⟨first, before⟩, after, split, clean⟩
        · cases split
          exact absurd rfl (plain r)
        · cases split
          exact ⟨before, after, rfl, fun e member => clean e (List.mem_cons_of_mem _ member)⟩

theorem ofPerm_eq_error_iff {p : Perm} {r : Report} : ofPerm p = .error r ↔
    ∃ before after, p.leaves = before ++ .error r :: after ∧ ∀ e, .error e ∉ before :=
  foldlM_eq_error_iff

theorem ofPerm_errorFree {p : Perm} (clean : p.ErrorFree) : ∃ c, ofPerm p = .ok c := by
  cases found : ofPerm p with
  | ok c => exact ⟨c, rfl⟩
  | error r =>
    obtain ⟨before, after, split, _⟩ := ofPerm_eq_error_iff.mp found
    exact absurd (split ▸ List.mem_append_right before List.mem_cons_self) (clean r)

theorem foldlM_eq_through (leaves : List Perm) (c : Chain) :
    leaves.foldlM push c = (do return c.through (← leaves.foldlM push [])) := by
  cases folded : leaves.foldlM push [] with
  | error r => exact foldlM_eq_error_iff.mpr (foldlM_eq_error_iff.mp folded)
  | ok d => exact foldlM_through (c := c) (d := []) folded

theorem ofPerm_apply_eq (p q : Perm) :
    ofPerm (.apply p q) = (do return (← ofPerm p).through (← ofPerm q)) := by
  rw [ofPerm, Perm.leaves, List.foldlM_append]
  exact bind_congr fun c => foldlM_eq_through q.leaves c

theorem ofPerm_apply_congr {p p' q q' : Perm} (left : ofPerm p = ofPerm p') (right : ofPerm q = ofPerm q') :
    ofPerm (.apply p q) = ofPerm (.apply p' q') := by
  rw [ofPerm_apply_eq, ofPerm_apply_eq, left, right]

theorem ofPerm_eq_of_regroups {p q : Perm} (regroups : p.Regroups q) : ofPerm p = ofPerm q := by
  induction regroups with
  | assoc p q r =>
    simp only [ofPerm_apply_eq]
    cases ofPerm p with
    | error => rfl
    | ok c =>
      cases ofPerm q with
      | error => rfl
      | ok d =>
        cases ofPerm r with
        | error => rfl
        | ok e => exact congrArg Except.ok (through_assoc c d e)
  | myFirst p =>
    rw [ofPerm_apply_eq]
    cases ofPerm p with
    | error => rfl
    | ok c => exact congrArg Except.ok (nil_through c)
  | myLast p =>
    rw [ofPerm_apply_eq]
    cases ofPerm p <;> rfl
  | left q _ same => exact ofPerm_apply_congr same rfl
  | right p _ same => exact ofPerm_apply_congr rfl same

theorem ofPerm_eq_of_eqvGen {p q : Perm} (regroups : EqvGen Perm.Regroups p q) : ofPerm p = ofPerm q := by
  induction regroups with
  | rel _ _ step => exact ofPerm_eq_of_regroups step
  | refl => rfl
  | symm _ _ _ ih => exact ih.symm
  | trans _ _ _ _ _ first second => exact first.trans second

theorem ofPerm_compose_eq (p q : Perm) : ofPerm (p.compose q) = ofPerm (.apply p q) := by
  rcases p.compose_cases q with ⟨rfl, same⟩ | ⟨rfl, same⟩ | same <;> rw [same]
  · exact (ofPerm_eq_of_regroups (.myFirst q)).symm
  · exact (ofPerm_eq_of_regroups (.myLast p)).symm

end Chain

theorem Ty.red_perm_perm (p q : Perm) (t : Ty) : (Ty.perm p (.perm q t)).head = (Ty.perm (.apply p q) t).head ∧
    Chain.ofPerm (Ty.perm p (.perm q t)).red.perm = Chain.ofPerm (Ty.perm (.apply p q) t).red.perm := by
  refine ⟨rfl, ?_⟩
  calc Chain.ofPerm (p.compose (q.compose t.red.perm))
      = Chain.ofPerm (.apply p (q.compose t.red.perm)) := Chain.ofPerm_compose_eq ..
    _ = Chain.ofPerm (.apply p (.apply q t.red.perm)) :=
        Chain.ofPerm_apply_congr rfl (Chain.ofPerm_compose_eq ..)
    _ = Chain.ofPerm (.apply (.apply p q) t.red.perm) := (Chain.ofPerm_eq_of_regroups (.assoc ..)).symm
    _ = Chain.ofPerm ((Perm.apply p q).compose t.red.perm) := (Chain.ofPerm_compose_eq ..).symm

theorem Head.red_toTy (h : Head) : h.toTy.red = ⟨h, .my⟩ := by cases h <;> rfl

theorem Ty.red_of_red (t : Ty) : (t.red.perm.applyTo t.red.head.toTy).red = t.red := by
  rw [Ty.red_applyTo, Head.head_toTy, Head.red_toTy, Perm.compose_my]

namespace Chain

/-- The chain of a permission without errors has copy liens at its head only, and is the chain of the
permission made of it. Applications are products of chains, so grouping and `my` do not matter, and types
take permissions on as applications do. Otherwise the leftmost error is the failure. -/
theorem chains_normalize :
    (∀ p : Perm, p.ErrorFree → ∃ c, ofPerm p = .ok c ∧ c.Proper) ∧
    (∀ c : Chain, c.Proper → ofPerm c.toPerm = .ok c) ∧
    (∀ p c, ofPerm p = .ok c → (ofPerm c.toPerm).map toPerm = .ok c.toPerm) ∧
    (∀ p q c d, ofPerm p = .ok c → ofPerm q = .ok d → ofPerm (.apply p q) = .ok (c.through d)) ∧
    (∀ p q, EqvGen Perm.Regroups p q → ofPerm p = ofPerm q) ∧
    (∀ p q (t : Ty), (Ty.perm p (.perm q t)).head = (Ty.perm (.apply p q) t).head ∧
      ofPerm (Ty.perm p (.perm q t)).red.perm = ofPerm (Ty.perm (.apply p q) t).red.perm) ∧
    (∀ t : Ty, (t.red.perm.applyTo t.red.head.toTy).red = t.red) ∧
    ∀ p r, ofPerm p = .error r ↔
      ∃ before after, p.leaves = before ++ .error r :: after ∧ ∀ e, .error e ∉ before := by
  refine ⟨fun p clean => ?_, fun c => ofPerm_toPerm, fun p c found => ?_, fun p q c d => ofPerm_apply,
    fun p q => ofPerm_eq_of_eqvGen, Ty.red_perm_perm, Ty.red_of_red, fun p r => ofPerm_eq_error_iff⟩
  · obtain ⟨c, found⟩ := ofPerm_errorFree clean
    exact ⟨c, found, proper_ofPerm found⟩
  · rw [ofPerm_toPerm (proper_ofPerm found)]
    rfl

theorem chains_normalize_leased :
    Perm.ErrorFree (.apply (.leased [.var Session.owner]) (.apply .our (.infer 0))) ∧
      ofPerm (.apply (.apply (.leased [.var Session.owner]) (.apply .my .our)) (.infer 0)) = .ok [.our, .infer 0] ∧
      ofPerm (toPerm [.our, .infer 0]) = .ok [.our, .infer 0] ∧
      ∀ r s, ofPerm (.apply .our (.apply (.error r) (.error s))) = .error r := by
  have clean : Perm.ErrorFree (.apply (.leased [.var Session.owner]) (.apply .our (.infer 0))) := by
    simp [Perm.ErrorFree, Perm.leaves]
  obtain ⟨_, back, _, product, grouping, _, _, failure⟩ := chains_normalize
  refine ⟨clean, ?_, back _ (by simp [Proper, Lien.isCopy]), fun r s => (failure _ r).mpr ?_⟩
  · have grouped := grouping (.apply (.apply (.leased [.var Session.owner]) (.apply .my .our)) (.infer 0))
      (.apply (.leased [.var Session.owner]) (.apply .our (.infer 0)))
      (.trans _ _ _ (.rel _ _ (.left _ (.right _ (.myFirst .our)))) (.rel _ _ (.assoc ..)))
    exact grouped.trans (product _ _ [.leased [.var Session.owner]] [.our, .infer 0] rfl rfl)
  · exact ⟨[.our], [.error s], rfl, by simp⟩

end Chain

end Ownership
