import Ownership.Proofs.Requests
import Ownership.Rules.Predicates
import Ownership.Rules.Subtyping

namespace Ownership

inductive Record where
  | lower (i : InferIndex) (t : Term)
  | upper (i : InferIndex) (t : Term)
  | edge (i j : InferIndex)
  | fact (i : InferIndex) (p : Predicate)

namespace Record

def subject : Record → InferIndex
  | lower i _ => i
  | upper i _ => i
  | edge i _ => i
  | fact i _ => i

def InRange (count : Nat) : Record → Prop
  | edge _ j => j < count
  | _ => True

end Record

def InferVar.Knows (v : InferVar) : Record → Prop
  | .lower _ t => ∃ b, v.lower = some b ∧ b.term = t
  | .upper _ t => ∃ b ∈ v.uppers, b.term = t
  | .edge _ j => j ∈ v.successors
  | .fact _ p => ∃ f ∈ v.facts, f.1 = p

instance (count : Nat) (r : Record) : Decidable (r.InRange count) :=
  match r with
  | .edge _ j => inferInstanceAs (Decidable (j < count))
  | .lower .. => isTrue trivial
  | .upper .. => isTrue trivial
  | .fact .. => isTrue trivial

instance (v : InferVar) (r : Record) : Decidable (v.Knows r) :=
  match r with
  | .lower _ t => decidable_of_iff (v.lower.map Bound.term = some t) (by simp [InferVar.Knows])
  | .upper _ t => inferInstanceAs (Decidable (∃ b ∈ v.uppers, b.term = t))
  | .edge _ j => inferInstanceAs (Decidable (j ∈ v.successors))
  | .fact _ p => inferInstanceAs (Decidable (∃ f ∈ v.facts, f.1 = p))

namespace Session

variable {s s' s'' : Session} {i j : InferIndex} {t u : Term} {r? : Option Record}

def lower? (s : Session) (i : InferIndex) : Option Bound := s.inferVars[i]?.bind (·.lower)

def SameLowers (s s' : Session) : Prop := ∀ i, s'.lower? i = s.lower? i

theorem SameLowers.refl (s : Session) : s.SameLowers s := fun _ => rfl

theorem SameLowers.trans (first : s.SameLowers s') (second : s'.SameLowers s'') : s.SameLowers s'' :=
  fun i => (second i).trans (first i)

theorem SameLowers.of_inferVars (same : s'.inferVars = s.inferVars) : s.SameLowers s' := by
  intro i
  rw [lower?, lower?, same]

def Has (s : Session) (r : Record) : Prop :=
  ∃ v, s.inferVars[r.subject]? = some v ∧ v.Knows r ∧ r.InRange s.inferVars.length

instance (s : Session) (r : Record) : Decidable (s.Has r) :=
  decidable_of_iff (∃ v ∈ s.inferVars[r.subject]?, v.Knows r ∧ r.InRange s.inferVars.length)
    (by simp [Has])

def Mirrors (s : Session) (i j : InferIndex) : Prop :=
  ∃ v, s.inferVars[j]? = some v ∧ i ∈ v.predecessors

theorem Has.lower_unique (first : s.Has (.lower i t)) (second : s.Has (.lower i u)) : t = u := by
  obtain ⟨v, found, ⟨b, bound, rfl⟩, _⟩ := first
  obtain ⟨v', found', ⟨b', bound', rfl⟩, _⟩ := second
  cases found.symm.trans found'
  cases bound.symm.trans bound'
  rfl

/-- A change that adds at most one record and withdraws none. -/
structure Gains (s s' : Session) (r? : Option Record) : Prop where
  size : s'.inferVars.length = s.inferVars.length
  has : ∀ r, s'.Has r ↔ s.Has r ∨ r? = some r
  mirrors : ∀ i j, s.Mirrors i j → s'.Mirrors i j

theorem Gains.of_same (same : s'.inferVars = s.inferVars) : s.Gains s' none where
  size := by rw [same]
  has r := by simp only [Has, same, reduceCtorEq, or_false]
  mirrors i j := by simp only [Mirrors, same, imp_self]

theorem Gains.trans (first : s.Gains s' r?) (second : s'.Gains s'' none) : s.Gains s'' r? where
  size := second.size.trans first.size
  has r := by
    rw [second.has, first.has]
    simp only [reduceCtorEq, or_false]
  mirrors i j known := second.mirrors i j (first.mirrors i j known)

theorem Gains.modify {v : InferVar} {f : InferVar → InferVar} (found : s.inferVars[i]? = some v)
    (changed : s'.inferVars = s.inferVars.modify i f)
    (knows : ∀ r, r.subject = i → r.InRange s.inferVars.length → ((f v).Knows r ↔ v.Knows r ∨ r? = some r))
    (valid : ∀ r, r? = some r → r.subject = i ∧ r.InRange s.inferVars.length)
    (mirrors : v.predecessors ⊆ (f v).predecessors) : s.Gains s' r? := by
  have size : s'.inferVars.length = s.inferVars.length := by rw [changed, List.length_modify]
  have own : s'.inferVars[i]? = some (f v) := by
    rw [changed, List.getElem?_modify_eq, found]
    rfl
  have other {j : InferIndex} (apart : i ≠ j) : s'.inferVars[j]? = s.inferVars[j]? := by
    rw [changed, List.getElem?_modify_ne (h := apart)]
  refine ⟨size, fun r => ?_, fun k j ⟨u, known, member⟩ => ?_⟩
  · unfold Has
    rw [size]
    by_cases mine : r.subject = i
    · rw [mine, own, found]
      simp only [Option.some.injEq, exists_eq_left']
      constructor
      · rintro ⟨learned, range⟩
        exact ((knows r mine range).mp learned).imp_left (⟨·, range⟩)
      · rintro (⟨old, range⟩ | new)
        · exact ⟨(knows r mine range).mpr (.inl old), range⟩
        · exact ⟨(knows r mine (valid r new).2).mpr (.inr new), (valid r new).2⟩
    · rw [other (Ne.symm mine)]
      constructor
      · exact .inl
      · rintro (old | new)
        · exact old
        · exact (mine (valid r new).1).elim
  · by_cases mine : i = j
    · subst mine
      cases found.symm.trans known
      exact ⟨f v, own, mirrors member⟩
    · exact ⟨u, (other mine).trans known, member⟩

theorem Gains.modify_none {v : InferVar} {f : InferVar → InferVar} (found : s.inferVars[i]? = some v)
    (changed : s'.inferVars = s.inferVars.modify i f) (knows : ∀ r, (f v).Knows r ↔ v.Knows r)
    (mirrors : v.predecessors ⊆ (f v).predecessors) : s.Gains s' none :=
  .modify found changed (fun r _ _ => by simp only [knows, reduceCtorEq, or_false]) nofun mirrors

end Session

namespace Session

def Touches (s s' : Session) : Prop := ∃ vars, ({ s with inferVars := vars } : Session).Alike s'

theorem Touches.refl (s : Session) : s.Touches s := ⟨s.inferVars, .refl s⟩

theorem Touches.trans {s s' s'' : Session} (first : s.Touches s') (second : s'.Touches s'') : s.Touches s'' := by
  obtain ⟨_, _, _, _, _, rfl⟩ := first
  obtain ⟨vars, _, _, _, _, rfl⟩ := second
  exact ⟨vars, _, _, _, _, rfl⟩

end Session

theorem InferVar.withPredecessor_eq (v : InferVar) (i : InferIndex) : ∃ before,
    v.withPredecessor i = { v with predecessors := before } ∧ v.predecessors <+: before ∧
      ∀ x, x ∈ before ↔ x ∈ v.predecessors ∨ x = i := by
  unfold withPredecessor
  split
  · rename_i listed
    refine ⟨_, rfl, List.prefix_rfl, fun x => ⟨.inl, ?_⟩⟩
    rintro (old | rfl)
    · exact old
    · simpa using listed
  · exact ⟨_, rfl, List.prefix_append .., by simp⟩

namespace Action

variable {α : Type} {s : Session} {i j : InferIndex} {v : InferVar}

abbrev Spares (a : Action α) : Prop := a.Within fun s s' => s'.inferVars = s.inferVars

theorem Spares.bind {γ : Type} {a : Action α} {f : α → Action γ} (first : a.Spares)
    (next : ∀ x, (f x).Spares) : (a >>= f).Spares :=
  Within.bind (fun first second => second.trans first) first next

theorem spares_log (depth : Nat) (message : String) (values : List String) : (log depth message values).Spares := by
  intro s
  obtain ⟨_, _, _, _, same⟩ := (exec_log depth message values s).2
  rw [same]

theorem spares_report (env : Env) (d : Diagnostic) : (report env d).Spares :=
  (spares_log _ _ _).bind fun _ _ => rfl

theorem spares_refuse (env : Env) (o : Obligation) (because : Because) : (refuse env o because : Action α).Spares := by
  intro s
  obtain ⟨_, _, same⟩ := exec_refuse (α := α) env o because s
  rw [same]

theorem spares_inferVar (i : InferIndex) : (inferVar i).Spares := by
  intro s
  rw [exec_inferVar]

def Checks (a : Action Unit) : Prop := ∀ s : Session,
  a.exec s = (.ok (), s) ∨ ∃ e s', a.exec s = (.error e, s') ∧ s'.inferVars = s.inferVars

theorem Checks.forM {f : α → Action Unit} (each : ∀ a, (f a).Checks) (as : List α) (s : Session) :
    (as.forM f).exec s = (.ok (), s) ∨ ∃ e s', (as.forM f).exec s = (.error e, s') ∧
      s'.inferVars = s.inferVars ∧ as ≠ [] := by
  induction as with
  | nil => exact .inl rfl
  | cons a as ih =>
    change (f a >>= fun _ => as.forM f).exec s = _ ∨
      ∃ e s', (f a >>= fun _ => as.forM f).exec s = _ ∧ _
    rw [exec_bind]
    rcases each a s with passed | ⟨e, s', failed, same⟩
    · rw [passed]
      exact ih.imp_right fun ⟨e, s', failed, same, _⟩ => ⟨e, s', failed, same, List.cons_ne_nil _ _⟩
    · rw [failed]
      exact .inr ⟨e, s', rfl, same, List.cons_ne_nil _ _⟩

def Sets (a : Action α) (s : Session) (x : α) (vars : List InferVar) : Prop :=
  ∃ s', a.exec s = (.ok x, s') ∧ s'.inferVars = vars ∧ s.Touches s'

theorem sets_modify {a : Action α} {x : α} {f : InferVar → InferVar}
    (exec : a.exec s = (modifyInferVar i f >>= fun _ => notify i >>= fun _ => pure x).exec s) :
    a.Sets s x (s.inferVars.modify i f) := ⟨_, exec, rfl, _, _, _, _, _, rfl⟩

section Found

variable (found : s.inferVars[i]? = some v)
include found

theorem sets_setLowerBound {b : Bound} (free : v.lower = none) :
    (setLowerBound i b).Sets s () (s.inferVars.modify i fun v => { v with lower := some b }) := by
  let next : Session :=
    { s with inferVars := s.inferVars.modify i fun v => { v with lower := some b } }
  obtain ⟨done, alike⟩ := exec_log 0 "lower bound" [{ v with lower := some b }.render i] next
  have exec : (setLowerBound i b).exec s =
      (notify i).exec ((log 0 "lower bound" [{ v with lower := some b }.render i]).exec next).2 := by
    simp only [setLowerBound, exec_bind, exec_inferVar, found, Option.elim, free, Option.isSome_none]
    rfl
  obtain ⟨_, _, _, _, logged⟩ := alike
  rw [logged] at exec
  exact ⟨_, exec, rfl, _, _, _, _, _, rfl⟩

theorem sets_addUpperBound {b : Bound} (fresh : v.hasUpper b.term = false) :
    (addUpperBound i b).Sets s true (s.inferVars.modify i fun v => { v with uppers := v.uppers ++ [b] }) := by
  refine sets_modify ?_
  simp only [addUpperBound, exec_bind, exec_inferVar, found, Option.elim, fresh]
  rfl

theorem exec_addUpperBound_old {b : Bound} (old : v.hasUpper b.term = true) :
    (addUpperBound i b).exec s = (.ok false, s) := by
  simp only [addUpperBound, exec_bind, exec_inferVar, found, Option.elim, old]
  rfl

theorem sets_addFact {p : Predicate} {o : Obligation} (fresh : v.hasFact p = false) :
    (addFact i p o).Sets s true (s.inferVars.modify i fun v => { v with facts := v.facts ++ [(p, o)] }) := by
  refine sets_modify ?_
  simp only [addFact, exec_bind, exec_inferVar, found, Option.elim, fresh]
  rfl

theorem exec_addFact_old {p : Predicate} {o : Obligation} (old : v.hasFact p = true) :
    (addFact i p o).exec s = (.ok false, s) := by
  simp only [addFact, exec_bind, exec_inferVar, found, Option.elim, old]
  rfl

theorem sets_exclude {p : Predicate} (new : v.excludes p = false) :
    (exclude i p).Sets s () (s.inferVars.modify i fun v => { v with excluded := v.excluded ++ [p] }) := by
  refine sets_modify ?_
  simp only [exclude, exec_bind, exec_inferVar, found, Option.elim, new]
  rfl

theorem exec_exclude {p : Predicate} :
    ∃ s', (exclude i p).exec s = (.ok (), s') ∧ s.Touches s' ∧ s.Gains s' none := by
  cases known : v.excludes p with
  | true =>
    refine ⟨s, ?_, .refl s, .of_same rfl⟩
    simp only [exclude, exec_bind, exec_inferVar, found, Option.elim, known]
    rfl
  | false =>
    obtain ⟨s', exec, vars, touches⟩ := sets_exclude found known
    refine ⟨s', exec, touches, .modify_none found vars (fun r => ?_) fun _ => id⟩
    cases r <;> rfl

theorem exec_addEdge_new (fresh : v.successors.contains j = false) :
    (addEdge i j).exec s = (inferVar j >>= fun _ => modifyInferVar j (·.withPredecessor i) >>=
        fun _ => notify i >>= fun _ => notify j >>= fun _ => pure true).exec
          { s with inferVars := s.inferVars.modify i (·.withSuccessor j) } := by
  rw [addEdge, exec_bind, exec_inferVar, found]
  simp only [Option.elim, fresh]
  rfl

theorem sets_addEdge {u : InferVar} (apart : i ≠ j)
    (fresh : v.successors.contains j = false) (target : s.inferVars[j]? = some u) :
    (addEdge i j).Sets s true ((s.inferVars.modify i (·.withSuccessor j)).modify j (·.withPredecessor i)) := by
  have exec := exec_addEdge_new found fresh
  rw [exec_bind, exec_inferVar] at exec
  simp only [List.getElem?_modify_ne (h := apart), target] at exec
  exact ⟨_, exec, rfl, _, _, _, _, _, rfl⟩

theorem exec_addEdge_old (old : v.successors.contains j = true) :
    (addEdge i j).exec s = (.ok false, s) := by
  simp only [addEdge, exec_bind, exec_inferVar, found, Option.elim, old]
  rfl

theorem exec_addEdge_nowhere (fresh : v.successors.contains j = false)
    (nowhere : s.inferVars[j]? = none) : ∃ e s', (addEdge i j).exec s = (.error e, s') ∧ s.Gains s' none := by
  have beyond : s.inferVars.length ≤ j := List.getElem?_eq_none_iff.mp nowhere
  have still : (s.inferVars.modify i (·.withSuccessor j))[j]? = none := by
    rwa [List.getElem?_eq_none_iff, List.length_modify]
  have exec := exec_addEdge_new found fresh
  rw [exec_bind, exec_inferVar] at exec
  simp only [still] at exec
  refine ⟨_, _, exec, .modify found rfl (fun r _ range => ?_) nofun fun _ => id⟩
  cases r with
  | edge k target =>
    have apart : target ≠ j := Nat.ne_of_lt (Nat.lt_of_lt_of_le range beyond)
    simp [InferVar.Knows, InferVar.withSuccessor, apart]
  | lower | upper | fact => simp [InferVar.Knows, InferVar.withSuccessor]

end Found

end Action

namespace Session

variable {s : Session} {i : InferIndex} {v : InferVar}

section Found

variable (found : s.inferVars[i]? = some v)
include found

theorem has_lower_iff {t : Term} : s.Has (.lower i t) ↔ ∃ b, v.lower = some b ∧ b.term = t := by
  simp [Has, Record.subject, Record.InRange, InferVar.Knows, found]

theorem has_upper_iff {t : Term} : s.Has (.upper i t) ↔ ∃ b ∈ v.uppers, b.term = t := by
  simp [Has, Record.subject, Record.InRange, InferVar.Knows, found]

theorem has_edge_iff {j : InferIndex} : s.Has (.edge i j) ↔ j ∈ v.successors ∧ j < s.inferVars.length := by
  simp [Has, Record.subject, Record.InRange, InferVar.Knows, found]

theorem has_fact_iff {p : Predicate} : s.Has (.fact i p) ↔ ∃ f ∈ v.facts, f.1 = p := by
  simp [Has, Record.subject, Record.InRange, InferVar.Knows, found]

theorem hasUpper_iff {t : Term} : v.hasUpper t = true ↔ s.Has (.upper i t) := by
  simp [has_upper_iff found, InferVar.hasUpper]

end Found

end Session

namespace Rules

open Ownership.Action

variable (env : Env) (i j : InferIndex) (t : Term) (p : Predicate) (o : Obligation) (s : Session)

theorem checkHome_cases : (checkHome env i t o).exec s = (.ok (), s) ∨
    ∃ e s', (checkHome env i t o).exec s = (.error e, s') ∧ s'.inferVars = s.inferVars ∧
      (i < s.inferVars.length → t.freeVariables ≠ []) := by
  rw [checkHome, exec_bind, exec_inferVar]
  cases found : s.inferVars[i]? with
  | none =>
    have outside : s.inferVars.length ≤ i := List.getElem?_eq_none_iff.mp found
    exact .inr ⟨_, s, rfl, rfl, fun inside => absurd inside (Nat.not_lt.mpr outside)⟩
  | some v =>
    simp only [Option.elim]
    refine (Checks.forM (fun x s => ?_) t.freeVariables s).imp_right fun ⟨e, s', failed, same, some_⟩ =>
      ⟨e, s', failed, same, fun _ => some_⟩
    simp only [exec_bind, universeOf, exec_get, exec_pure]
    split
    · exact .inl rfl
    · obtain ⟨report, trace, refused⟩ := exec_refuse (α := Unit) env o (.universeEscape x.render) s
      exact .inr ⟨_, _, refused, rfl⟩

def LowerRecorded : Except Failure (Bound ⊕ List Bound) → Session → Prop
  | .error _, s' => s.Gains s' none ∧ (i < s.inferVars.length → t.freeVariables ≠ [])
  | .ok (.inl b), s' => s' = s ∧ s.Has (.lower i b.term)
  | .ok (.inr uppers), s' => s.Touches s' ∧ s.Gains s' (some (.lower i t)) ∧
    (∀ u, ¬ s.Has (.lower i u)) ∧ ∀ u, s.Has (.upper i u) ↔ ∃ b ∈ uppers, b.term = u

theorem recordLower_spec : LowerRecorded i t s ((recordLower env i t o).exec s).1
    ((recordLower env i t o).exec s).2 := by
  rw [recordLower, exec_bind, exec_inferVar]
  cases found : s.inferVars[i]? with
  | none =>
    have outside : s.inferVars.length ≤ i := List.getElem?_eq_none_iff.mp found
    exact ⟨.of_same rfl, fun inside => absurd inside (Nat.not_lt.mpr outside)⟩
  | some v =>
    simp only [Option.elim]
    cases free : v.lower with
    | some b => exact ⟨rfl, (Session.has_lower_iff found).mpr ⟨b, free, rfl⟩⟩
    | none =>
      simp only [exec_bind]
      rcases checkHome_cases env i t o s with passed | ⟨e, s', failed, same, escapes⟩
      · obtain ⟨s', set, vars, touches⟩ := sets_setLowerBound (b := ⟨t, o⟩) found free
        rw [passed]
        simp only [set]
        refine ⟨touches, .modify found vars (fun r mine range => ?_) ?_ fun _ => id, fun u has => ?_,
          fun u => Session.has_upper_iff found⟩
        · cases r with
          | lower k u =>
            obtain rfl : k = i := mine
            simp [InferVar.Knows, free, eq_comm]
          | upper | edge | fact => simp [InferVar.Knows]
        · rintro r ⟨⟩
          exact ⟨rfl, trivial⟩
        · obtain ⟨b, bound, _⟩ := (Session.has_lower_iff found).mp has
          exact nomatch free.symm.trans bound
      · rw [failed]
        exact ⟨.of_same same, escapes⟩

def UpperRecorded : Except Failure (Option (Option Bound)) → Session → Prop
  | .error _, s' => s.Gains s' none ∧ (i < s.inferVars.length → t.freeVariables ≠ [])
  | .ok none, s' => s' = s ∧ s.Has (.upper i t)
  | .ok (some lower), s' => s.Touches s' ∧ s.Gains s' (some (.upper i t)) ∧ ¬ s.Has (.upper i t) ∧
    ∀ u, s.Has (.lower i u) ↔ ∃ b, lower = some b ∧ b.term = u

theorem recordUpper_spec : UpperRecorded i t s ((recordUpper env i t o).exec s).1
    ((recordUpper env i t o).exec s).2 := by
  rw [recordUpper, exec_bind, exec_inferVar]
  cases found : s.inferVars[i]? with
  | none =>
    have outside : s.inferVars.length ≤ i := List.getElem?_eq_none_iff.mp found
    exact ⟨.of_same rfl, fun inside => absurd inside (Nat.not_lt.mpr outside)⟩
  | some v =>
    simp only [Option.elim, exec_bind]
    rcases checkHome_cases env i t o s with passed | ⟨e, s', failed, same, escapes⟩
    · rw [passed]
      cases known : v.hasUpper t with
      | true =>
        simp only [exec_addUpperBound_old (b := ⟨t, o⟩) found known]
        exact ⟨rfl, (Session.hasUpper_iff found).mp known⟩
      | false =>
        obtain ⟨s', set, vars, touches⟩ := sets_addUpperBound (b := ⟨t, o⟩) found known
        simp only [set]
        refine ⟨touches, .modify found vars (fun r mine _ => ?_) ?_ fun _ => id, fun has => ?_,
          fun u => Session.has_lower_iff found⟩
        · cases r with
          | upper k u =>
            obtain rfl : k = i := mine
            simp only [InferVar.Knows, List.mem_append, List.mem_singleton, or_and_right, exists_or,
              exists_eq_left, Option.some.injEq, Record.upper.injEq, true_and]
          | lower | edge | fact => simp [InferVar.Knows]
        · rintro r ⟨⟩
          exact ⟨rfl, trivial⟩
        · rw [← Session.hasUpper_iff found, known] at has
          cases has
    · rw [failed]
      exact ⟨.of_same same, escapes⟩

def EdgeRecorded : Except Failure (Option (Option Bound × List Bound)) → Session → Prop
  | .error _, s' => s.Gains s' none ∧ (i < s.inferVars.length → ¬ j < s.inferVars.length)
  | .ok none, s' => s' = s ∧ (i ≠ j → j < s.inferVars.length → s.Has (.edge i j))
  | .ok (some (bound, uppers)), s' => s.Touches s' ∧ s.Gains s' (some (.edge i j)) ∧
    s'.Mirrors i j ∧ ¬ s.Has (.edge i j) ∧ (∀ u, s.Has (.lower i u) ↔ ∃ b, bound = some b ∧ b.term = u) ∧
    ∀ u, s.Has (.upper j u) ↔ ∃ b ∈ uppers, b.term = u

theorem recordEdge_spec : EdgeRecorded i j s ((recordEdge i j).exec s).1 ((recordEdge i j).exec s).2 := by
  unfold recordEdge
  by_cases self : i = j
  · rw [if_pos self]
    exact ⟨rfl, fun apart => (apart self).elim⟩
  rw [if_neg self, exec_bind]
  cases found : s.inferVars[i]? with
  | none =>
    have outside : s.inferVars.length ≤ i := List.getElem?_eq_none_iff.mp found
    simp only [addEdge, exec_bind, exec_inferVar, found, Option.elim]
    exact ⟨.of_same rfl, fun inside => absurd inside (Nat.not_lt.mpr outside)⟩
  | some v =>
    cases known : v.successors.contains j with
    | true =>
      rw [exec_addEdge_old found known]
      exact ⟨rfl, fun _ inside => (Session.has_edge_iff found).mpr ⟨by simpa using known, inside⟩⟩
    | false =>
      cases target : s.inferVars[j]? with
      | none =>
        obtain ⟨e, s', failed, gains⟩ := exec_addEdge_nowhere found known target
        rw [failed]
        exact ⟨gains, fun _ => Nat.not_lt.mpr (List.getElem?_eq_none_iff.mp target)⟩
      | some u =>
        obtain ⟨s', set, vars, touches⟩ := sets_addEdge found self known target
        let near : InferVar := v.withSuccessor j
        let far : InferVar := u.withPredecessor i
        have atStart : s'.inferVars[i]? = some near := by
          rw [vars, List.getElem?_modify_ne (h := Ne.symm self), List.getElem?_modify_eq, found]
          rfl
        have atEnd : s'.inferVars[j]? = some far := by
          rw [vars, List.getElem?_modify_eq, List.getElem?_modify_ne (h := self), target]
          rfl
        have farther : u.predecessors ⊆ far.predecessors ∧ i ∈ far.predecessors ∧
            far.uppers = u.uppers ∧ ∀ r, far.Knows r ↔ u.Knows r := by
          obtain ⟨before, same, back, listed⟩ := u.withPredecessor_eq i
          rw [show far = _ from same]
          exact ⟨back.subset, (listed i).mpr (.inr rfl), rfl, fun r => by cases r <;> rfl⟩
        have first : s.Gains { s with inferVars := s.inferVars.modify i (·.withSuccessor j) } (some (.edge i j)) := by
          refine .modify found rfl (fun r mine _ => ?_) ?_ fun _ => id
          · cases r with
            | edge k target =>
              obtain rfl : k = i := mine
              simp [InferVar.Knows, InferVar.withSuccessor, eq_comm]
            | lower | upper | fact => simp [InferVar.Knows, InferVar.withSuccessor]
          · rintro r ⟨⟩
            exact ⟨rfl, (List.getElem?_eq_some_iff.mp target).1⟩
        have second : Session.Gains { s with inferVars := s.inferVars.modify i (·.withSuccessor j) } s' none :=
          .modify_none (by rw [List.getElem?_modify_ne (h := self), target]) vars farther.2.2.2 farther.1
        rw [set]
        simp only [Bool.not_true, Bool.false_eq_true, if_false, exec_bind, exec_inferVar, atStart, atEnd,
          Option.elim, exec_pure]
        refine ⟨touches, first.trans second, ⟨far, atEnd, farther.2.1⟩, fun has => ?_,
          fun _ => Session.has_lower_iff found, fun _ => ?_⟩
        · have listed := ((Session.has_edge_iff found).mp has).1
          rw [List.contains_eq_mem, decide_eq_false_iff_not] at known
          exact known listed
        · rw [farther.2.2.1]
          exact Session.has_upper_iff target

def FactRecorded : Except Failure (Option Bound) → Session → Prop
  | .error _, s' => s.Gains s' none
  | .ok none, s' => s' = s ∨ s.Gains s' (some (.fact i p)) ∧ ∀ u, ¬ s.Has (.lower i u)
  | .ok (some b), s' => s.Gains s' (some (.fact i p)) ∧ s.Has (.lower i b.term)

theorem recordFact_spec : FactRecorded i p s ((recordFact env i p o).exec s).1 ((recordFact env i p o).exec s).2 := by
  rw [recordFact, exec_bind, exec_inferVar]
  cases found : s.inferVars[i]? with
  | none => exact .of_same rfl
  | some v =>
    simp only [Option.elim]
    cases v.excludes p with
    | true =>
      obtain ⟨report, trace, refused⟩ := exec_refuse (α := Unit) env o (.inferIsnt p) s
      simp only [if_true, exec_bind, refused]
      exact .of_same rfl
    | false =>
      simp only [Bool.false_eq_true, if_false, exec_bind]
      cases known : v.hasFact p with
      | true =>
        rw [exec_addFact_old found known]
        exact .inl rfl
      | false =>
        obtain ⟨s', set, vars, _⟩ := sets_addFact (o := o) found known
        have gains : s.Gains s' (some (.fact i p)) := by
          refine .modify found vars (fun r mine _ => ?_) ?_ fun _ => id
          · cases r with
            | fact k q =>
              obtain rfl : k = i := mine
              simp only [InferVar.Knows, List.mem_append, List.mem_singleton, or_and_right, exists_or,
                exists_eq_left, Option.some.injEq, Record.fact.injEq, true_and]
            | lower | upper | edge => simp [InferVar.Knows]
          · rintro r ⟨⟩
            exact ⟨rfl, trivial⟩
        have recorded {s'' : Session} (more : s'.Gains s'' none) :
            FactRecorded i p s (.ok v.lower) s'' := by
          cases bound : v.lower with
          | some b => exact ⟨gains.trans more, (Session.has_lower_iff found).mpr ⟨b, bound, rfl⟩⟩
          | none =>
            refine .inr ⟨gains.trans more, fun u has => ?_⟩
            obtain ⟨b, known, _⟩ := (Session.has_lower_iff found).mp has
            cases bound.symm.trans known
        rw [set]
        simp only [Bool.not_true, Bool.false_eq_true, if_false]
        split
        · have still : s'.inferVars[i]? = some { v with facts := v.facts ++ [(p, o)] } := by
            rw [vars, List.getElem?_modify_eq, found]
            rfl
          obtain ⟨s'', excluded, _, more⟩ := exec_exclude (p := p.opposite) still
          rw [exec_bind, excluded]
          exact recorded more
        · exact recorded (.of_same rfl)

end Rules

namespace Session

variable {s s' s'' : Session} {e? : Option (InferIndex × InferIndex)}

def Links (e? : Option (InferIndex × InferIndex)) (s s' : Session) : Prop :=
  ∀ i v', s'.inferVars[i]? = some v' → ∃ v, s.inferVars[i]? = some v ∧ v'.kind = v.kind ∧
    (∀ j ∈ v'.successors, j ∈ v.successors ∨ e? = some (i, j)) ∧
    ∀ j ∈ v'.predecessors, j ∈ v.predecessors ∨ e? = some (j, i)

theorem Links.of_same (same : s'.inferVars = s.inferVars) : s.Links e? s' := fun _ v' found =>
  ⟨v', same ▸ found, rfl, fun _ => .inl, fun _ => .inl⟩

theorem Links.trans (first : s.Links e? s') (second : s'.Links e? s'') : s.Links e? s'' := by
  intro i v'' found
  obtain ⟨v', found, kind', after', before'⟩ := second i v'' found
  obtain ⟨v, found, kind, after, before⟩ := first i v' found
  refine ⟨v, found, kind'.trans kind, fun j member => ?_, fun j member => ?_⟩
  · exact (after' j member).elim (after j) .inr
  · exact (before' j member).elim (before j) .inr

end Session

namespace Action

variable {e? : Option (InferIndex × InferIndex)} {i j : InferIndex} {α : Type}

theorem Spares.links {a : Action α} (spares : a.Spares) : a.Within (Session.Links e?) :=
  fun s => .of_same (spares s)

theorem links_bind {γ : Type} {a : Action α} {f : α → Action γ} (first : a.Within (Session.Links e?))
    (next : ∀ x, (f x).Within (Session.Links e?)) : (a >>= f).Within (Session.Links e?) :=
  Within.bind .trans first next

theorem links_modifyInferVar {f : InferVar → InferVar} (kind : ∀ v, (f v).kind = v.kind)
    (after : ∀ v, ∀ j ∈ (f v).successors, j ∈ v.successors ∨ e? = some (i, j))
    (before : ∀ v, ∀ j ∈ (f v).predecessors, j ∈ v.predecessors ∨ e? = some (j, i)) :
    (modifyInferVar i f).Within (Session.Links e?) := by
  intro s k v' found
  change (s.inferVars.modify i f)[k]? = some v' at found
  rw [List.getElem?_modify] at found
  obtain ⟨v, known, rfl⟩ := Option.map_eq_some_iff.mp found
  refine ⟨v, known, ?_⟩
  split
  · rename_i same
    subst same
    exact ⟨kind v, after v, before v⟩
  · exact ⟨rfl, fun _ => .inl, fun _ => .inl⟩

theorem spares_notify (i : InferIndex) : (notify i).Spares := fun _ => rfl

theorem links_setLowerBound (b : Bound) : (setLowerBound i b).Within (Session.Links e?) := by
  have set_ : (modifyInferVar i fun v => { v with lower := some b }).Within (Session.Links e?) :=
    links_modifyInferVar (fun _ => rfl) (fun _ _ => .inl) fun _ _ => .inl
  refine links_bind (spares_inferVar i).links fun v => ?_
  dsimp only
  split
  · exact links_bind (fun s => .of_same rfl) fun _ => links_bind set_ fun _ =>
      links_bind (spares_log _ _ _).links fun _ => (spares_notify i).links
  · exact links_bind set_ fun _ => links_bind (spares_log _ _ _).links fun _ => (spares_notify i).links

theorem links_addUpperBound (b : Bound) : (addUpperBound i b).Within (Session.Links e?) := by
  have added : (modifyInferVar i fun v => { v with uppers := v.uppers ++ [b] }).Within (Session.Links e?) :=
    links_modifyInferVar (fun _ => rfl) (fun _ _ => .inl) fun _ _ => .inl
  refine links_bind (spares_inferVar i).links fun v => ?_
  split
  · exact fun s => .of_same rfl
  · exact links_bind added fun _ => links_bind (spares_notify i).links fun _ s => .of_same rfl

theorem links_addEdge (i j : InferIndex) : (addEdge i j).Within (Session.Links (some (i, j))) := by
  have near : (modifyInferVar i (·.withSuccessor j)).Within (Session.Links (some (i, j))) := by
    refine links_modifyInferVar (fun _ => rfl) (fun v k member => ?_) fun _ _ => .inl
    exact (List.mem_append.mp member).imp_right fun last => by rw [List.mem_singleton.mp last]
  have far : (modifyInferVar j (·.withPredecessor i)).Within (Session.Links (some (i, j))) := by
    refine links_modifyInferVar (fun v => ?_) (fun v k member => ?_) fun v k member => ?_
    all_goals obtain ⟨before, same, _, listed⟩ := v.withPredecessor_eq i
    · rw [same]
    · rw [same] at member
      exact .inl member
    · rw [same] at member
      exact ((listed k).mp member).imp_right fun last => by rw [last]
  refine links_bind (spares_inferVar i).links fun v => ?_
  split
  · exact fun s => .of_same rfl
  · exact links_bind near fun _ => links_bind (spares_inferVar j).links fun _ => links_bind far fun _ =>
      links_bind (spares_notify i).links fun _ => links_bind (spares_notify j).links fun _ s => .of_same rfl

end Action

namespace Rules

open Ownership.Action

variable (env : Env) (i j : InferIndex) (t : Term) (o : Obligation)

theorem spares_checkHome : (checkHome env i t o).Spares := by
  intro s
  rcases checkHome_cases env i t o s with passed | ⟨e, s', failed, same, _⟩
  · rw [passed]
  · rw [failed, same]

theorem links_recordLower : (recordLower env i t o).Within (Session.Links none) := by
  refine links_bind (spares_inferVar i).links fun v => ?_
  split
  · exact fun s => .of_same rfl
  · exact links_bind (spares_checkHome env i t o).links fun _ =>
      links_bind (links_setLowerBound _) fun _ s => .of_same rfl

theorem links_recordUpper : (recordUpper env i t o).Within (Session.Links none) := by
  refine links_bind (spares_inferVar i).links fun v => links_bind (spares_checkHome env i t o).links fun _ =>
    links_bind (links_addUpperBound _) fun fresh => ?_
  cases fresh <;> exact fun s => .of_same rfl

theorem links_recordEdge : (recordEdge i j).Within (Session.Links (some (i, j))) := by
  unfold recordEdge
  split
  · exact fun s => .of_same rfl
  refine links_bind (links_addEdge i j) fun fresh => ?_
  cases fresh with
  | false => exact fun s => .of_same rfl
  | true =>
    exact links_bind (spares_inferVar i).links fun _ => links_bind (spares_inferVar j).links fun _ s =>
      .of_same rfl

section Consequences

variable (env : Env) (i : InferIndex) (t : Term) (o : Obligation) {P : Goal .unit → Prop}

theorem forall_passToSuccessors (each : ∀ u, P (.subTerms env t u o)) (s : Session) :
    ∀ g ∈ passToSuccessors env i t o s, P g := by
  unfold passToSuccessors
  split
  · exact List.forall_mem_map.mpr fun j _ => each _
  · exact fun _ member => absurd member List.not_mem_nil

theorem forall_passToPredecessors (each : ∀ j, P (.addUpperBound env j t o)) (s : Session) :
    ∀ g ∈ passToPredecessors env i t o s, P g := by
  unfold passToPredecessors
  split
  · exact List.forall_mem_map.mpr fun j _ => each j
  · exact fun _ member => absurd member List.not_mem_nil

theorem forall_subArguments {as bs : List Term} {goals : List (Goal .unit)} (each : ∀ l u, P (.subTerms env l u o))
    (found : subArguments env o as bs = .ok goals) : ∀ g ∈ goals, P g := by
  induction as generalizing bs goals with
  | nil =>
    cases found
    exact fun _ member => absurd member List.not_mem_nil
  | cons a as ih =>
    cases bs with
    | nil => exact nomatch found
    | cons b bs =>
      cases rest : subArguments env o as bs with
      | error v =>
        rw [subArguments, rest] at found
        exact nomatch found
      | ok goals' =>
        rw [subArguments, rest] at found
        cases found
        exact List.forall_mem_cons.mpr ⟨each a b, ih rest⟩

end Consequences

end Rules

end Ownership
