import Ownership.Proofs.Ground
import Ownership.Proofs.Opening

namespace Ownership

def EndsIn {ε α : Type} (P : α → Prop) (E : ε → Prop) : Except ε α → Prop
  | .ok a => P a
  | .error e => E e

section EndsIn

variable {ε α β : Type} {P P' : α → Prop} {Q : β → Prop} {E : ε → Prop} {x : Except ε α}

theorem EndsIn.imp (h : EndsIn P E x) (imp : ∀ a, P a → P' a) : EndsIn P' E x := by
  cases x with
  | ok a => exact imp a h
  | error e => exact h

theorem EndsIn.of_ok {a : α} (h : EndsIn P E x) (same : x = .ok a) : P a := by
  subst same
  exact h

theorem EndsIn.fails {E' : ε → Prop} (h : EndsIn P E x) (imp : ∀ e, E e → E' e) : EndsIn P E' x := by
  cases x with
  | ok a => exact h
  | error e => exact imp e h

theorem EndsIn.bind {f : α → Except ε β} (h : EndsIn P E x) (next : ∀ a, P a → EndsIn Q E (f a)) :
    EndsIn Q E (x >>= f) := by
  cases x with
  | ok a => exact next a h
  | error e => exact h

theorem EndsIn.mapM {f : α → Except ε β} {as : List α} (each : ∀ a ∈ as, EndsIn Q E (f a)) :
    EndsIn (fun bs => ∀ b ∈ bs, Q b) E (as.mapM f) := by
  induction as with
  | nil => exact nofun
  | cons a as ih =>
    rw [List.mapM_cons]
    refine (each a List.mem_cons_self).bind fun b first => ?_
    refine (ih fun a member => each a (List.mem_cons_of_mem _ member)).bind fun bs rest => ?_
    exact List.forall_mem_cons.mpr ⟨first, rest⟩

end EndsIn

/-- Which inference variables and variables terms are built from, and whether places are arguments in them. -/
structure Lexicon where
  infer : Kind → InferIndex → Prop
  var : Variable → Prop
  /-- The variables of the places in `shared[...]`, whose types are never looked up. -/
  shown : Variable → Prop := var
  places : Prop

namespace Lexicon

structure Within (L M : Lexicon) : Prop where
  infer : ∀ k i, L.infer k i → M.infer k i
  var : ∀ v, L.var v → M.var v
  shown : ∀ v, L.shown v → M.shown v
  places : L.places → M.places

def all : Lexicon := ⟨fun _ _ => True, fun _ => True, fun _ => True, True⟩

def adding (L : Lexicon) (more : Variable → Prop) : Lexicon := { L with var := fun v => L.var v ∨ more v }

def sharing (L : Lexicon) : Lexicon := { L with var := L.shown }

theorem Within.adding {L M : Lexicon} (within : L.Within M) (more : Variable → Prop) :
    (L.adding more).Within (M.adding more) :=
  ⟨within.infer, fun v => Or.imp_left (within.var v), within.shown, within.places⟩

theorem Within.sharing {L M : Lexicon} (within : L.Within M) : L.sharing.Within M.sharing :=
  ⟨within.infer, within.shown, within.shown, within.places⟩

theorem sharing_within {L : Lexicon} (shown : ∀ v, L.shown v → L.var v) : L.sharing.Within L :=
  ⟨fun _ _ => id, shown, fun _ => id, id⟩

theorem within_sharing {L : Lexicon} (shows : ∀ v, L.var v → L.shown v) : L.Within L.sharing :=
  ⟨fun _ _ => id, shows, fun _ => id, id⟩

theorem sharing_eq {L : Lexicon} (shown : L.shown = L.var) : L.sharing = L := by
  obtain ⟨_, _, _, _⟩ := L
  cases shown
  rfl

theorem adding_within {L M : Lexicon} {more : Variable → Prop} (within : L.Within M)
    (known : ∀ v, more v → M.var v) : (L.adding more).Within M :=
  ⟨within.infer, fun v => Or.rec (within.var v) (known v), within.shown, within.places⟩

end Lexicon

def Place.In (L : Lexicon) : Place → Prop
  | .var v => L.var v
  | .field base _ => base.In L
  | .index base => base.In L
  | .infer i => L.infer .place i
  | .error _ => True

def Perm.In (L : Lexicon) : Perm → Prop
  | .shared places => ∀ p ∈ places, p.In L.sharing
  | .leased places => ∀ p ∈ places, p.In L
  | .apply l r => l.In L ∧ r.In L
  | .infer i => L.infer .perm i
  | .var v => L.var v
  | .my => True
  | .our => True
  | .error _ => True

mutual
def Ty.In (L : Lexicon) : Ty → Prop
  | .perm p t => p.In L ∧ t.In L
  | .named _ args => Term.AllIn L args
  | .infer i => L.infer .type i
  | .var v => L.var v
  | .never => True
  | .error _ => True

def Term.In (L : Lexicon) : Term → Prop
  | .ty t => t.In L
  | .perm p => p.In L
  | .place p => L.places ∧ p.In L
  | .error _ => True

def Term.AllIn (L : Lexicon) : List Term → Prop
  | [] => True
  | t :: ts => t.In L ∧ Term.AllIn L ts
end

/-- The term may be put in for a variable: it may be a place even where places are no arguments. -/
def Term.Fills (L : Lexicon) : Term → Prop
  | .place p => p.In L
  | t => t.In L

def Term.Bounds (L : Lexicon) (i : InferIndex) : Term → Prop
  | .ty t => t.In L ∧ L.infer .type i
  | .perm p => p.In L ∧ L.infer .perm i
  | _ => False

def Place.infers : Place → List InferIndex
  | .field base _ => base.infers
  | .index base => base.infers
  | .infer i => [i]
  | _ => []

def Perm.infers : Perm → List InferIndex
  | .shared places => places.flatMap Place.infers
  | .leased places => places.flatMap Place.infers
  | .apply l r => l.infers ++ r.infers
  | .infer i => [i]
  | _ => []

mutual
def Ty.infers : Ty → List InferIndex
  | .perm p t => p.infers ++ t.infers
  | .named _ args => Term.allInfers args
  | .infer i => [i]
  | _ => []

def Term.infers : Term → List InferIndex
  | .ty t => t.infers
  | .perm p => p.infers
  | .place p => p.infers
  | .error _ => []

def Term.allInfers : List Term → List InferIndex
  | [] => []
  | t :: ts => t.infers ++ Term.allInfers ts
end

theorem Ty.mem_infers_of_head {t : Ty} {i : InferIndex} (h : t.head = .infer i) : i ∈ t.infers := by
  match t with
  | .perm p t =>
    rw [infers]
    exact List.mem_append_right _ (mem_infers_of_head h)
  | .infer j =>
    cases h
    simp [infers]

section Lexicons

variable {L M : Lexicon}

theorem Term.allIn_iff {ts : List Term} : Term.AllIn L ts ↔ ∀ t ∈ ts, t.In L := by
  induction ts with
  | nil => simp [AllIn]
  | cons t ts ih => simp [AllIn, ih]

theorem Ty.in_named {name : TyName} {args : List Term} : (Ty.named name args).In L ↔ ∀ t ∈ args, t.In L := by
  rw [Ty.In, Term.allIn_iff]

/-- What the first lexicon allows of the variables and inference variables, the second does. -/
structure Lexicon.Gives (L M : Lexicon) (vs : List Variable) (is : List InferIndex) : Prop where
  var : ∀ v ∈ vs, L.var v → M.var v
  shown : ∀ v ∈ vs, L.shown v → M.shown v
  infer : ∀ i ∈ is, ∀ k, L.infer k i → M.infer k i
  places : L.places → M.places

theorem Lexicon.Gives.append {vs vs' : List Variable} {is is' : List InferIndex}
    (gives : L.Gives M (vs ++ vs') (is ++ is')) : L.Gives M vs is ∧ L.Gives M vs' is' :=
  have ⟨vars, vars'⟩ := List.forall_mem_append.mp gives.var
  have ⟨shown, shown'⟩ := List.forall_mem_append.mp gives.shown
  have ⟨infers, infers'⟩ := List.forall_mem_append.mp gives.infer
  ⟨⟨vars, shown, infers, gives.places⟩, vars', shown', infers', gives.places⟩

theorem Lexicon.Gives.sharing {vs : List Variable} {is : List InferIndex} (gives : L.Gives M vs is) :
    L.sharing.Gives M.sharing vs is := ⟨gives.shown, gives.shown, gives.infer, gives.places⟩

theorem Place.In.imp {p : Place} (h : p.In L) (gives : L.Gives M p.occurrences p.infers) : p.In M := by
  induction p with
  | var v => exact gives.var v List.mem_cons_self h
  | field base f ih | index base ih => exact ih h gives
  | infer i => exact gives.infer i List.mem_cons_self .place h
  | error r => trivial

theorem Place.forall_in_imp {ps : List Place} (h : ∀ p ∈ ps, p.In L)
    (gives : L.Gives M (ps.flatMap occurrences) (ps.flatMap infers)) : ∀ p ∈ ps, p.In M := by
  refine fun p member => (h p member).imp ⟨fun v inside => ?_, fun v inside => ?_, fun i inside => ?_, gives.places⟩
  · exact gives.var v (List.mem_flatMap.mpr ⟨p, member, inside⟩)
  · exact gives.shown v (List.mem_flatMap.mpr ⟨p, member, inside⟩)
  · exact gives.infer i (List.mem_flatMap.mpr ⟨p, member, inside⟩)

variable {p : Perm} {t : Term} {v : Variable}

theorem Perm.In.imp (h : p.In L) (gives : L.Gives M p.occurrences p.infers) : p.In M := by
  induction p with
  | shared ps => exact Place.forall_in_imp h gives.sharing
  | leased ps => exact Place.forall_in_imp h gives
  | apply l r left right => exact ⟨left h.1 gives.append.1, right h.2 gives.append.2⟩
  | infer i => exact gives.infer i List.mem_cons_self .perm h
  | var v => exact gives.var v List.mem_cons_self h
  | _ => trivial

mutual
theorem Ty.In.imp : {t : Ty} → t.In L → L.Gives M t.occurrences t.infers → t.In M
  | .perm _ _, h, gives => ⟨h.1.imp gives.append.1, h.2.imp gives.append.2⟩
  | .named _ _, h, gives => Term.AllIn.imp h gives
  | .infer i, h, gives => gives.infer i List.mem_cons_self .type h
  | .var v, h, gives => gives.var v List.mem_cons_self h
  | .never, _, _ | .error _, _, _ => trivial

theorem Term.In.imp : {t : Term} → t.In L → L.Gives M t.occurrences t.infers → t.In M
  | .ty _, h, gives => Ty.In.imp h gives
  | .perm _, h, gives => Perm.In.imp h gives
  | .place _, h, gives => ⟨gives.places h.1, Place.In.imp h.2 gives⟩
  | .error _, _, _ => trivial

theorem Term.AllIn.imp : {ts : List Term} → Term.AllIn L ts →
    L.Gives M (Term.occurrencesAll ts) (Term.allInfers ts) → Term.AllIn M ts
  | [], _, _ => trivial
  | _ :: _, h, gives => ⟨h.1.imp gives.append.1, h.2.imp gives.append.2⟩
end

section Growing

variable (within : L.Within M)
include within

theorem Lexicon.Within.gives {vs : List Variable} {is : List InferIndex} : L.Gives M vs is :=
  ⟨fun v _ => within.var v, fun v _ => within.shown v, fun i _ k => within.infer k i, within.places⟩

theorem Place.In.mono {p : Place} (h : p.In L) : p.In M := h.imp within.gives

theorem Perm.In.mono (h : p.In L) : p.In M := h.imp within.gives

theorem Ty.In.mono {t : Ty} (h : t.In L) : t.In M := h.imp within.gives

theorem Term.In.mono (h : t.In L) : t.In M := h.imp within.gives

theorem Term.Fills.mono (h : t.Fills L) : t.Fills M := by
  cases t with
  | ty t => exact Ty.In.mono within h
  | perm p => exact Perm.In.mono within h
  | place p => exact Place.In.mono within h
  | error r => trivial

theorem Term.Bounds.mono {i : InferIndex} (h : t.Bounds L i) : t.Bounds M i := by
  cases t with
  | ty t | perm p => exact ⟨h.1.mono within, within.infer _ _ h.2⟩
  | place p | error r => exact h

end Growing

theorem Term.In.fills (h : t.In L) : t.Fills L := by
  cases t with
  | place p => exact h.2
  | ty t | perm p => exact h
  | error r => trivial

theorem Term.Fills.in (h : t.Fills L) (allowed : L.places ∨ t.kind? ≠ some .place) : t.In L := by
  cases t with
  | place p => exact ⟨allowed.resolve_right (fun other => other rfl), h⟩
  | ty t | perm p => exact h
  | error r => trivial

theorem Term.Bounds.in {i : InferIndex} (h : t.Bounds L i) : t.In L := by
  cases t with
  | ty t | perm p => exact h.1
  | place p | error r => exact h.elim

theorem Term.fills_ofInfer {k : Kind} {i : InferIndex} (h : L.infer k i) : (Term.ofInfer k i).Fills L := by
  cases k <;> exact h

theorem Term.fills_ofVariable (h : L.var v) : (Term.ofVariable v).Fills L := by
  unfold ofVariable
  split <;> exact h

theorem Perm.In.compose {q : Perm} (outer : p.In L) (inner : q.In L) : (p.compose q).In L := by
  unfold Perm.compose
  split
  · exact inner
  · exact outer
  · exact ⟨outer, inner⟩

theorem Perm.In.applyTo {t : Ty} (outer : p.In L) (inner : t.In L) : (p.applyTo t).In L := by
  unfold Perm.applyTo
  split
  · exact inner
  · exact ⟨outer, inner⟩

theorem Ty.In.red : {t : Ty} → t.In L → t.red.perm.In L ∧ t.red.head.toTy.In L
  | .perm _ _, h => ⟨h.1.compose h.2.red.1, h.2.red.2⟩
  | .named _ _, h | .infer _, h | .var _, h => ⟨trivial, h⟩
  | .never, _ | .error _, _ => ⟨trivial, trivial⟩

theorem Ty.In.head {t : Ty} (h : t.In L) : t.head.toTy.In L := h.red.2

theorem Perm.In.leaves (h : p.In L) : ∀ q ∈ p.leaves, q.In L := by
  induction p with
  | apply l r ihl ihr =>
    intro q member
    rcases List.mem_append.mp member with left | right
    · exact ihl h.1 q left
    · exact ihr h.2 q right
  | _ =>
    intro q member
    rw [List.mem_singleton.mp member]
    exact h

theorem Chain.in_push {c d : Chain} (h : p.In L) (before : ∀ l ∈ c, l.toPerm.In L)
    (pushed : c.push p = .ok d) : ∀ l ∈ d, l.toPerm.In L := by
  have snoc {l : Lien} (last : l.toPerm.In L) : ∀ l' ∈ c ++ [l], l'.toPerm.In L := by
    intro l' member
    rcases List.mem_append.mp member with old | new
    · exact before l' old
    · rw [List.mem_singleton.mp new]
      exact last
  cases p <;> simp only [push, Except.ok.injEq, reduceCtorEq] at pushed <;> subst pushed
  case my => exact before
  case apply => exact before
  case our => exact List.forall_mem_singleton.mpr h
  case shared => exact List.forall_mem_singleton.mpr h
  all_goals exact snoc h

theorem Chain.in_ofPerm {c : Chain} (h : p.In L) (found : ofPerm p = .ok c) : ∀ l ∈ c, l.toPerm.In L :=
  foldlM_induction (P := fun c => ∀ l ∈ c, l.toPerm.In L)
    (fun q member _ _ before => in_push (h.leaves q member) before)
    (fun _ member => absurd member List.not_mem_nil) found

theorem Chain.in_toPerm {c : Chain} (h : ∀ l ∈ c, l.toPerm.In L) : c.toPerm.In L := by
  have folds (c : Chain) (p : Perm) (start : p.In L) (rest : ∀ l ∈ c, l.toPerm.In L) :
      (c.foldl (fun p l => .apply p l.toPerm) p : Perm).In L := by
    induction c generalizing p with
    | nil => exact start
    | cons l c ih =>
      obtain ⟨first, rest⟩ := List.forall_mem_cons.mp rest
      exact ih _ ⟨start, first⟩ rest
  cases c with
  | nil => trivial
  | cons l c =>
    obtain ⟨first, rest⟩ := List.forall_mem_cons.mp h
    exact folds c _ first rest

theorem Place.In.var_of_mem {p : Place} (h : p.In L) (occurs : v ∈ p.occurrences) : L.var v := by
  induction p with
  | var u =>
    rw [List.mem_singleton.mp occurs]
    exact h
  | field base f ih | index base ih => exact ih h occurs
  | infer i | error r => cases occurs

theorem Perm.In.shown_of_mem (shows : ∀ v, L.var v → L.shown v) (h : p.In L) (occurs : v ∈ p.occurrences) :
    L.shown v := by
  have places {M : Lexicon} {ps : List Place} (h : ∀ p ∈ ps, p.In M) (occurs : v ∈ ps.flatMap Place.occurrences) :
      M.var v := by
    obtain ⟨p, member, occurs⟩ := List.mem_flatMap.mp occurs
    exact (h p member).var_of_mem occurs
  induction p with
  | shared ps => exact places h occurs
  | leased ps => exact shows v (places h occurs)
  | apply l r ihl ihr => exact (List.mem_append.mp occurs).elim (ihl h.1) (ihr h.2)
  | var u =>
    rw [List.mem_singleton.mp occurs]
    exact shows u h
  | my | our | infer i | error r => cases occurs

mutual
theorem Ty.In.shown_of_mem {v : Variable} (shows : ∀ v, L.var v → L.shown v) : {t : Ty} → t.In L →
    v ∈ t.occurrences → L.shown v
  | .perm _ _, h, occurs =>
    (List.mem_append.mp occurs).elim (h.1.shown_of_mem shows) (h.2.shown_of_mem shows)
  | .named _ _, h, occurs => Term.AllIn.shown_of_mem shows h occurs
  | .var _, h, occurs => by
    rw [List.mem_singleton.mp occurs]
    exact shows _ h
  | .infer _, _, occurs | .never, _, occurs | .error _, _, occurs => absurd occurs List.not_mem_nil

theorem Term.In.shown_of_mem {v : Variable} (shows : ∀ v, L.var v → L.shown v) : {t : Term} → t.In L →
    v ∈ t.occurrences → L.shown v
  | .ty _, h, occurs => Ty.In.shown_of_mem shows h occurs
  | .perm _, h, occurs => Perm.In.shown_of_mem shows h occurs
  | .place _, h, occurs => shows v (Place.In.var_of_mem h.2 occurs)
  | .error _, _, occurs => absurd occurs List.not_mem_nil

theorem Term.AllIn.shown_of_mem {v : Variable} (shows : ∀ v, L.var v → L.shown v) : {ts : List Term} →
    Term.AllIn L ts → v ∈ Term.occurrencesAll ts → L.shown v
  | [], _, occurs => absurd occurs List.not_mem_nil
  | _ :: _, h, occurs => (List.mem_append.mp occurs).elim (h.1.shown_of_mem shows) (h.2.shown_of_mem shows)
end

theorem Place.in_all (p : Place) : p.In .all := by
  induction p with
  | field base f ih | index base ih => exact ih
  | _ => trivial

theorem Perm.in_all (p : Perm) : p.In .all := by
  induction p with
  | shared ps | leased ps => exact fun p _ => p.in_all
  | apply l r left right => exact ⟨left, right⟩
  | _ => trivial

mutual
theorem Ty.in_all : (t : Ty) → t.In .all
  | .perm p t => ⟨p.in_all, t.in_all⟩
  | .named _ args => Term.allIn_all args
  | .infer _ | .var _ | .never | .error _ => trivial

theorem Term.in_all : (t : Term) → t.In .all
  | .ty t => t.in_all
  | .perm p => p.in_all
  | .place p => ⟨trivial, p.in_all⟩
  | .error _ => trivial

theorem Term.allIn_all : (ts : List Term) → Term.AllIn .all ts
  | [] => trivial
  | t :: ts => ⟨t.in_all, Term.allIn_all ts⟩
end

theorem Term.mem_freeVariables : v ∈ t.freeVariables ↔ v ∈ t.occurrences := by
  have folds (vs seen : List Variable) : v ∈ vs.foldl (fun seen v => if seen.contains v then seen
      else seen ++ [v]) seen ↔ v ∈ seen ∨ v ∈ vs := by
    induction vs generalizing seen with
    | nil => simp
    | cons u vs ih =>
      rw [List.foldl_cons, ih]
      split
      · rename_i known
        have known : u ∈ seen := by simpa using known
        grind
      · grind
  rw [freeVariables, folds]
  simp

def Violation.IsMisfit : Violation → Prop
  | .expected _ _ => True
  | _ => False

def Lexicon.under (L : Lexicon) (σ : Substitution) : Lexicon :=
  { L with
    var := fun v => match σ.lookup v with
      | some t => t.Fills L
      | none => L.var v
    shown := fun v => match σ.lookup v with
      | some t => t.Fills L.sharing
      | none => L.shown v }

section Substituting

variable {σ : Substitution}
variable {t : Term}

theorem Term.Fills.expectTy (h : t.Fills L) : EndsIn (Ty.In L) Violation.IsMisfit t.expectTy := by
  cases t with
  | ty t => exact h
  | error r | perm p | place p => trivial

theorem Lexicon.fills_of_under (found : σ.lookup v = some t) (h : (L.under σ).var v) : t.Fills L := by
  simpa only [Lexicon.under, found] using h

theorem Lexicon.var_of_under (none : σ.lookup v = none) (h : (L.under σ).var v) : L.var v := by
  simpa only [Lexicon.under, none] using h

theorem Lexicon.var_under {vs : List Variable} {terms : List Term} (count : terms.length = vs.length)
    (fills : ∀ t ∈ terms, t.Fills L) (known : v ∈ vs ∨ L.var v) : (L.under ⟨vs.zip terms⟩).var v := by
  simp only [Lexicon.under]
  split
  · rename_i t found
    exact fills t (List.of_mem_zip (Substitution.mem_of_lookup found)).2
  · rename_i none
    refine known.resolve_left fun member => ?_
    obtain ⟨t, found⟩ := Substitution.exists_lookup count member
    exact nomatch none.symm.trans found

structure InputOutput.In (A : Nat → Lexicon) (B : Lexicon) (C : Predicate → Lexicon) (types : InputOutput) : Prop where
  inputTys : ∀ (k : Nat) (t : Ty), types.inputTys[k]? = some t → t.In (A k)
  outputTy : types.outputTy.In B
  clauses : ∀ c ∈ types.whereClauses, c.subject.In (C c.predicate)

end Substituting

end Lexicons

end Ownership
