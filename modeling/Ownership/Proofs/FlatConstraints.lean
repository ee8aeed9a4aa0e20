import Ownership.Proofs.GroundRules
import Ownership.Proofs.Records

namespace Ownership

open Relation (ReflTransGen)

mutual
def Ty.Flat (arity : TyName → Nat) : Ty → Prop
  | .named name args => args.length = arity name ∧ Term.AllFlat arity args
  | _ => False

def Term.Flat (arity : TyName → Nat) : Term → Prop
  | .ty t => t.Flat arity
  | _ => False

def Term.AllFlat (arity : TyName → Nat) : List Term → Prop
  | [] => True
  | t :: ts => t.Flat arity ∧ Term.AllFlat arity ts
end

section Flat

variable {arity : TyName → Nat}

theorem Ty.Flat.named : {t : Ty} → t.Flat arity → ∃ name args, t = .named name args ∧
    args.length = arity name ∧ Term.AllFlat arity args
  | .named name args, flat => ⟨name, args, rfl, flat⟩

theorem Term.AllFlat.mem {ts : List Term} {t : Term} (all : Term.AllFlat arity ts) (member : t ∈ ts) :
    ∃ u, t = .ty u ∧ u.Flat arity := by
  induction ts with
  | nil => cases member
  | cons t' ts ih =>
    rcases List.mem_cons.mp member with rfl | member
    · match t, all.1 with
      | .ty u, flat => exact ⟨u, rfl, flat⟩
    · exact ih all.2 member

mutual
theorem Ty.Flat.occurrences : {t : Ty} → t.Flat arity → t.occurrences = []
  | .named _ _, flat => flat.2.occurrencesAll

theorem Term.Flat.occurrences : {t : Term} → t.Flat arity → t.occurrences = []
  | .ty _, flat => Ty.Flat.occurrences flat

theorem Term.AllFlat.occurrencesAll : {ts : List Term} → Term.AllFlat arity ts → Term.occurrencesAll ts = []
  | [], _ => rfl
  | _ :: _, all => List.append_eq_nil_iff.mpr ⟨Term.Flat.occurrences all.1, all.2.occurrencesAll⟩
end

theorem Ty.Flat.freeVariables {t : Ty} (flat : t.Flat arity) : (Term.ty t).freeVariables = [] := by
  rw [Term.freeVariables, show (Term.ty t).occurrences = [] from flat.occurrences]
  rfl

end Flat

inductive Constraint where
  | lower (t : Ty) (i : InferIndex)
  | upper (i : InferIndex) (t : Ty)
  | edge (i j : InferIndex)

namespace Constraint

def lowerTy : Constraint → Ty
  | lower t _ => t
  | upper i _ => .infer i
  | edge i _ => .infer i

def upperTy : Constraint → Ty
  | lower _ i => .infer i
  | upper _ t => t
  | edge _ j => .infer j

def Posed (c : Constraint) (g : Goal .unit) : Prop := ∃ env o, g = .subTys env c.lowerTy c.upperTy o

def Flat (arity : TyName → Nat) : Constraint → Prop
  | lower t _ => t.Flat arity
  | upper _ t => t.Flat arity
  | edge _ _ => True

def mentions : Constraint → List InferIndex
  | lower _ i => [i]
  | upper i _ => [i]
  | edge i j => [i, j]

def mentioned (cs : List Constraint) : List InferIndex := cs.flatMap mentions

def Leq (cs : List Constraint) : InferIndex → InferIndex → Prop := ReflTransGen fun i j => edge i j ∈ cs

def Reaches (cs : List Constraint) (t : Ty) (j : InferIndex) : Prop := ∃ i, lower t i ∈ cs ∧ Leq cs i j

def Caps (cs : List Constraint) (i : InferIndex) (t : Ty) : Prop := ∃ j, upper j t ∈ cs ∧ Leq cs i j

/-- Lower bounds that meet at a variable are the same, and so are a lower bound and an upper bound of a
variable that it leads to. -/
structure Consistent (cs : List Constraint) : Prop where
  lowers : ∀ {t u : Ty} {i j k : InferIndex}, lower t i ∈ cs → lower u j ∈ cs → Leq cs i k → Leq cs j k →
    t = u
  uppers : ∀ {t u : Ty} {i j : InferIndex}, lower t i ∈ cs → Leq cs i j → upper j u ∈ cs → t = u

variable {cs : List Constraint} {t u : Ty} {i j k : InferIndex}

theorem Consistent.reached (consistent : Consistent cs) (first : Reaches cs t k) (second : Reaches cs u k) : t = u := by
  obtain ⟨i, lower, leq⟩ := first
  obtain ⟨j, lower', leq'⟩ := second
  exact consistent.lowers lower lower' leq leq'

theorem Consistent.capped (consistent : Consistent cs) (reaches : Reaches cs t k) (caps : Caps cs k u) : t = u := by
  obtain ⟨i, lower, leq⟩ := reaches
  obtain ⟨j, upper, leq'⟩ := caps
  exact consistent.uppers lower (ReflTransGen.trans leq leq') upper

theorem Reaches.next (reaches : Reaches cs t i) (next : edge i j ∈ cs) : Reaches cs t j := by
  obtain ⟨k, lower, leq⟩ := reaches
  exact ⟨k, lower, ReflTransGen.tail leq next⟩

theorem Caps.before (caps : Caps cs j t) (next : edge i j ∈ cs) : Caps cs i t := by
  obtain ⟨k, upper, leq⟩ := caps
  exact ⟨k, upper, ReflTransGen.head next leq⟩

theorem mentioned_of_mem {c : Constraint} (member : c ∈ cs) (named : i ∈ c.mentions) : i ∈ mentioned cs :=
  List.mem_flatMap.mpr ⟨c, member, named⟩

theorem Reaches.mentioned (reaches : Reaches cs t j) : j ∈ mentioned cs := by
  obtain ⟨i, lower, leq⟩ := reaches
  rcases ReflTransGen.cases_tail leq with rfl | ⟨k, _, edge⟩
  · exact mentioned_of_mem lower List.mem_cons_self
  · exact mentioned_of_mem edge (List.mem_cons_of_mem _ List.mem_cons_self)

theorem Caps.mentioned (caps : Caps cs i t) : i ∈ mentioned cs := by
  obtain ⟨j, upper, leq⟩ := caps
  rcases ReflTransGen.cases_head leq with rfl | ⟨k, edge, _⟩
  · exact mentioned_of_mem upper List.mem_cons_self
  · exact mentioned_of_mem edge List.mem_cons_self

/-- The bounds that can ever be recorded. -/
def possible (cs : List Constraint) : List Record :=
  cs.flatMap fun
    | lower t _ => (mentioned cs).map (.lower · (.ty t))
    | upper _ t => (mentioned cs).map (.upper · (.ty t))
    | edge _ _ => []

theorem Reaches.possible (reaches : Reaches cs t i) : .lower i (.ty t) ∈ possible cs := by
  have named := reaches.mentioned
  obtain ⟨j, lower, _⟩ := reaches
  exact List.mem_flatMap.mpr ⟨_, lower, List.mem_map_of_mem (f := (Record.lower · (.ty t))) named⟩

theorem Caps.possible (caps : Caps cs i t) : .upper i (.ty t) ∈ possible cs := by
  have named := caps.mentioned
  obtain ⟨j, upper, _⟩ := caps
  exact List.mem_flatMap.mpr ⟨_, upper, List.mem_map_of_mem (f := (Record.upper · (.ty t))) named⟩

def missing (cs : List Constraint) (s : Session) : Nat := (possible cs).countP fun r => ¬ s.Has r

section Missing

variable {s s' : Session} (more : ∀ r, s.Has r → s'.Has r)
include more

theorem absent_le (rs : List Record) : rs.countP (fun r => ¬ s'.Has r) ≤ rs.countP fun r => ¬ s.Has r := by
  refine List.countP_mono_left fun r _ absent => ?_
  rw [decide_eq_true_eq] at absent ⊢
  exact fun has => absent (more r has)

theorem missing_le : missing cs s' ≤ missing cs s := absent_le more _

theorem missing_lt {r : Record} (new : r ∈ possible cs) (before : ¬ s.Has r) (after : s'.Has r) :
    missing cs s' < missing cs s := by
  obtain ⟨front, back, split⟩ := List.append_of_mem new
  have first := absent_le more front
  have last := absent_le more back
  simp only [missing, split, List.countP_append, List.countP_cons, before, after, not_true_eq_false,
    not_false_eq_true, decide_true, decide_false, Bool.false_eq_true, if_true, if_false]
  omega

end Missing

end Constraint

end Ownership
