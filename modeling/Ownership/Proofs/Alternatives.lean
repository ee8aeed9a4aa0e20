import Mathlib.Logic.Relation
import Ownership.Search

namespace Ownership

open Relation (ReflTransGen)

inductive Stand where
  | choosing
  | testing
  | requiring
  | proven
  | leaving
  | released
deriving DecidableEq

/-- A search below whose root some branches are under way, with what they did. Branch `k` is node `k + 1`. -/
structure Trial where
  search : Search
  stands : List Stand
  committed : List Nat := []
  accepted : List Nat := []
  concluded : List Nat := []

namespace Trial

variable {t t' : Trial} {k : Nat}

def start (search : Search) (count : Nat) : Trial where
  search := search
  stands := List.replicate count .choosing

def move (t : Trial) (k : Nat) (stand : Stand) : Trial := { t with stands := t.stands.set k stand }

inductive Step (t : Trial) : Trial → Prop
  | require {k : Nat} (here : t.stands[k]? = some .choosing) (required : t.search.isRequired (k + 1) = true) :
    Step t { t.move k .requiring with committed := t.committed ++ [k] }
  | test {k : Nat} (here : t.stands[k]? = some .choosing) (free : t.search.isRequired (k + 1) = false) :
    Step t (t.move k .testing)
  | reconsider {k : Nat} (here : t.stands[k]? = some .testing) : Step t (t.move k .choosing)
  | accept {k : Nat} (here : t.stands[k]? = some .testing) :
    Step t { t.move k .proven with accepted := t.accepted ++ [k] }
  | reject {k : Nat} (here : t.stands[k]? = some .testing) : Step t (t.move k .leaving)
  | fulfil {k : Nat} (here : t.stands[k]? = some .requiring) : Step t (t.move k .proven)
  | fail {k : Nat} (here : t.stands[k]? = some .requiring) : Step t (t.move k .leaving)
  | conclude {k : Nat} (here : t.stands[k]? = some .proven) :
    Step t { t.move k .leaving with search := t.search.conclude, concluded := t.concluded ++ [k] }
  | release {k : Nat} (here : t.stands[k]? = some .leaving) {search : Search}
    (released : t.search.release (k + 1) = some search) : Step t { t.move k .released with search := search }

def unreleased (t : Trial) : Nat := t.stands.countP fun stand => stand ≠ .released

def node (stand : Stand) : Alternative := ⟨[0], 0, false, stand = .released⟩

/-- At most one branch has committed itself, and if one has, all others are released. -/
def Sole (committed : List Nat) (stands : List Stand) : Prop :=
  committed = [] ∨ ∃ k, committed = [k] ∧ (∀ j stand, stands[j]? = some stand → j ≠ k → stand = .released) ∧
    stands[k]? ≠ some .choosing ∧ stands[k]? ≠ some .testing

structure Fair (t : Trial) : Prop where
  nodes : t.search.nodes = ⟨[], t.unreleased, true, false⟩ :: t.stands.map node
  concluded : t.search.concluded = true ↔ t.concluded ≠ []
  committed : Sole t.committed t.stands
  /-- If a test has succeeded, no branch has committed itself or will. -/
  accepted : t.accepted ≠ [] → t.committed = [] ∧ (t.search.concluded = true ∨ ∃ k : Nat, t.stands[k]? = some .proven)

variable {stand : Stand}

theorem getElem?_move {j : Nat} (here : k < t.stands.length) :
    (t.move k stand).stands[j]? = if j = k then some stand else t.stands[j]? := by
  by_cases same : j = k
  · subst same
    simp [move, here]
  · simp [move, same, List.getElem?_set_ne (Ne.symm same)]

theorem lt_length (here : t.stands[k]? = some stand) : k < t.stands.length :=
  (List.getElem?_eq_some_iff.mp here).1

theorem unreleased_pos (here : t.stands[k]? = some stand) (unreleased : stand ≠ .released) : 0 < t.unreleased :=
  List.countP_pos_iff.mpr ⟨stand, List.mem_of_getElem? here, by simp [unreleased]⟩

theorem unreleased_move {old new : Stand} (here : t.stands[k]? = some old) (leaves : old ≠ .released) :
    (t.move k new).unreleased = t.unreleased - 1 + if new = .released then 0 else 1 := by
  obtain ⟨inside, same⟩ := List.getElem?_eq_some_iff.mp here
  simp only [unreleased, move, List.countP_set inside, same]
  by_cases stays : new = .released <;> simp [leaves, stays]

theorem nodes_move {old new : Stand} (here : t.stands[k]? = some old) (leaves : old ≠ .released)
    (stays : new ≠ .released) : (t.move k new).stands.map node = t.stands.map node := by
  refine List.ext_getElem? fun j => ?_
  rw [List.getElem?_map, List.getElem?_map, getElem?_move (lt_length here)]
  split
  · rename_i same
    rw [same, here]
    simp [node, leaves, stays]
  · rfl

namespace Fair

variable (fair : t.Fair)
include fair

theorem live : t.search.liveAt 0 = t.unreleased := by
  simp [Search.liveAt, fair.nodes]

theorem committed_le : t.committed.length ≤ 1 := by
  rcases fair.committed with none | ⟨k, single, _⟩
  · simp [none]
  · simp [single]

theorem isRequired_iff (inside : k < t.stands.length) :
    t.search.isRequired (k + 1) = true ↔ t.search.concluded = false ∧ t.unreleased = 1 := by
  have found : t.search.nodes[k + 1]? = some (node t.stands[k]) := by
    rw [fair.nodes, List.getElem?_cons_succ, List.getElem?_map, List.getElem?_eq_getElem inside]
    rfl
  simp [Search.isRequired, found, node, fair.live]

omit fair in
theorem alone (here : t.stands[k]? = some stand) (unreleased : stand ≠ .released) (single : t.unreleased = 1) {j : Nat}
    {other : Stand} (there : t.stands[j]? = some other) (apart : j ≠ k) : other = .released := by
  have none : (t.move k .released).stands.countP (fun stand => stand ≠ .released) = 0 := by
    change (t.move k .released).unreleased = 0
    rw [unreleased_move here unreleased, single]
    rfl
  have moved : (t.move k .released).stands[j]? = some other := by
    rw [getElem?_move (lt_length here), if_neg apart, there]
  simpa using List.countP_eq_zero.mp none other (List.mem_of_getElem? moved)

theorem uncommitted (here : t.stands[k]? = some stand) (before : stand = .choosing ∨ stand = .testing) :
    t.committed = [] := by
  rcases fair.committed with none | ⟨j, _, others, early, late⟩
  · exact none
  · by_cases same : k = j
    · subst same
      rcases before with rfl | rfl
      · exact absurd here early
      · exact absurd here late
    · have released := others k stand here same
      rcases before with rfl | rfl <;> cases released

variable {old new : Stand}

theorem sole_move (here : t.stands[k]? = some old) (leaves : old ≠ .released)
    (early : new = .choosing ∨ new = .testing → old = .choosing ∨ old = .testing) :
    Sole t.committed (t.move k new).stands := by
  rcases fair.committed with none | ⟨j, single, others, choosing, testing⟩
  · exact .inl none
  -- the branch that moves is the one that has committed itself, since all others are released
  obtain rfl : k = j := Decidable.byContradiction fun apart => leaves (others k old here apart)
  have late : ¬ (old = .choosing ∨ old = .testing) := by
    rintro (rfl | rfl)
    · exact choosing here
    · exact testing here
  refine .inr ⟨k, single, fun i stand there apart => ?_, ?_, ?_⟩
  · rw [getElem?_move (lt_length here), if_neg apart] at there
    exact others i stand there apart
  · simp only [getElem?_move (lt_length here), if_true, ne_eq, Option.some.injEq]
    exact fun same => late (early (.inl same))
  · simp only [getElem?_move (lt_length here), if_true, ne_eq, Option.some.injEq]
    exact fun same => late (early (.inr same))

theorem nodes_moved (here : t.stands[k]? = some old) (leaves : old ≠ .released) (stays : new ≠ .released) :
    t.search.nodes = ⟨[], (t.move k new).unreleased, true, false⟩ :: (t.move k new).stands.map node := by
  have positive := unreleased_pos here leaves
  have count : (t.move k new).unreleased = t.unreleased := by
    rw [unreleased_move here leaves, if_neg stays]
    omega
  rw [count, nodes_move here leaves stays, fair.nodes]

theorem accepted_move (here : t.stands[k]? = some old) (unproven : old ≠ .proven) (accepted : t.accepted ≠ []) :
    t.committed = [] ∧ (t.search.concluded = true ∨ ∃ j : Nat, (t.move k new).stands[j]? = some .proven) := by
  obtain ⟨none, concluded | ⟨j, proven⟩⟩ := fair.accepted accepted
  · exact ⟨none, .inl concluded⟩
  · refine ⟨none, .inr ⟨j, ?_⟩⟩
    have apart : j ≠ k := fun same => by
      rw [same, here] at proven
      exact unproven (Option.some.inj proven)
    rw [getElem?_move (lt_length here), if_neg apart, proven]

theorem moved (here : t.stands[k]? = some old) (leaves : old ≠ .released)
    (unproven : old ≠ .proven) (stays : new ≠ .released)
    (early : new = .choosing ∨ new = .testing → old = .choosing ∨ old = .testing) : (t.move k new).Fair :=
  ⟨fair.nodes_moved here leaves stays, fair.concluded, fair.sole_move here leaves early, fair.accepted_move here unproven⟩

theorem require (here : t.stands[k]? = some .choosing) (required : t.search.isRequired (k + 1) = true) :
    Fair { t.move k .requiring with committed := t.committed ++ [k] } := by
  obtain ⟨unconcluded, single⟩ := (fair.isRequired_iff (lt_length here)).mp required
  have none : t.committed = [] := fair.uncommitted here (.inl rfl)
  refine ⟨fair.nodes_moved here (by decide) (by decide), fair.concluded, .inr ⟨k, by rw [none]; rfl, ?_, ?_, ?_⟩,
    fun accepted => ?_⟩
  · intro j stand there apart
    rw [getElem?_move (lt_length here), if_neg apart] at there
    exact alone here (by decide) single there apart
  · simp [getElem?_move (lt_length here)]
  · simp [getElem?_move (lt_length here)]
  · -- a branch whose test has succeeded is not released before it has concluded the search
    obtain ⟨_, concluded | ⟨j, proven⟩⟩ := fair.accepted accepted
    · rw [unconcluded] at concluded
      cases concluded
    · by_cases same : j = k
      · rw [same, here] at proven
        cases proven
      · cases alone here (by decide) single proven same

theorem accept (here : t.stands[k]? = some .testing) :
    Fair { t.move k .proven with accepted := t.accepted ++ [k] } := by
  refine ⟨fair.nodes_moved here (by decide) (by decide), fair.concluded, fair.sole_move here (by decide) (by decide),
    fun _ => ⟨fair.uncommitted here (.inr rfl), .inr ⟨k, ?_⟩⟩⟩
  simp [getElem?_move (lt_length here)]

theorem conclude (here : t.stands[k]? = some .proven) :
    Fair { t.move k .leaving with search := t.search.conclude, concluded := t.concluded ++ [k] } where
  nodes := fair.nodes_moved here (by decide) (by decide)
  concluded := by simp [Search.conclude]
  committed := fair.sole_move here (by decide) (by decide)
  accepted accepted := ⟨(fair.accepted accepted).1, .inl rfl⟩

theorem release_eq (here : t.stands[k]? = some old) (leaves : old ≠ .released) :
    t.search.release (k + 1) = some { t.search with
      nodes := ⟨[], (t.move k .released).unreleased, true, false⟩ :: (t.move k .released).stands.map node } := by
  have found : t.search.nodes[k + 1]? = some (node old) := by
    rw [fair.nodes, List.getElem?_cons_succ, List.getElem?_map, here]
    rfl
  have count : (t.move k .released).unreleased = t.unreleased - 1 := by
    rw [unreleased_move here leaves, if_pos rfl, Nat.add_zero]
  have children : (t.move k .released).stands.map node = (t.stands.map node).set k (node .released) := by
    rw [move, List.map_set]
  simp only [Search.release, found]
  simp [node, leaves, fair.nodes, count, children]

theorem release {search : Search} (here : t.stands[k]? = some .leaving)
    (released : t.search.release (k + 1) = some search) : Fair { t.move k .released with search := search } := by
  rw [fair.release_eq here (by decide)] at released
  cases released
  exact ⟨rfl, fair.concluded, fair.sole_move here (by decide) (by decide), fair.accepted_move here (by decide)⟩

end Fair

theorem Step.fair (step : t.Step t') (fair : t.Fair) : t'.Fair := by
  cases step with
  | require here required => exact fair.require here required
  | test here free | reconsider here | reject here | fulfil here | fail here =>
    exact fair.moved here (by decide) (by decide) (by decide) (by decide)
  | accept here => exact fair.accept here
  | conclude here => exact fair.conclude here
  | release here released => exact fair.release here released

theorem fair_start {search : Search} {count : Nat} {nodes : List Nat}
    (spawned : Search.start.spawn 0 count = .ok (search, nodes)) : (start search count).Fair := by
  obtain ⟨rfl, -⟩ := Prod.mk.inj (Except.ok.inj spawned)
  refine ⟨?_, by simp [start, Search.start], .inl rfl, fun accepted => absurd rfl accepted⟩
  simp [start, unreleased, Search.start, node, List.countP_replicate]

theorem fair_run (fair : t.Fair) (run : ReflTransGen Step t t') : t'.Fair := by
  induction run with
  | refl => exact fair
  | tail _ step ih => exact step.fair ih

theorem Step.length (step : t.Step t') : t'.stands.length = t.stands.length := by
  cases step <;> simp [move]

theorem length_run (run : ReflTransGen Step t t') : t'.stands.length = t.stands.length := by
  induction run with
  | refl => rfl
  | tail _ step ih => rw [step.length, ih]

theorem Step.stays_concluded (step : t.Step t') (fair : t.Fair) (concluded : t.search.concluded = true) :
    t'.search.concluded = true := by
  cases step with
  | conclude here => rfl
  | release here released =>
    rw [fair.release_eq here (by decide)] at released
    cases released
    exact concluded
  | _ => exact concluded

theorem Step.stays_released (step : t.Step t') (released : t.stands[k]? = some .released) :
    t'.stands[k]? = some .released := by
  have stays {j : Nat} {old new : Stand} (here : t.stands[j]? = some old) (leaves : old ≠ .released) :
      (t.move j new).stands[k]? = some .released := by
    rw [getElem?_move (lt_length here), if_neg, released]
    rintro rfl
    rw [here] at released
    exact leaves (Option.some.inj released)
  cases step with
  | require here required | test here free | reconsider here | accept here | reject here | fulfil here | fail here
  | conclude here | release here released => exact stays here (by decide)

theorem Step.committed_of_concluded (step : t.Step t') (fair : t.Fair) (concluded : t.concluded ≠ []) :
    t'.committed = t.committed := by
  cases step with
  | require here required =>
    obtain ⟨unconcluded, _⟩ := (fair.isRequired_iff (lt_length here)).mp required
    rw [fair.concluded.mpr concluded] at unconcluded
    cases unconcluded
  | _ => rfl

theorem Step.requiring (step : t.Step t') (before : ∀ k : Nat, t.stands[k]? = some .requiring → k ∈ t.committed) :
    ∀ k : Nat, t'.stands[k]? = some .requiring → k ∈ t'.committed := by
  have moved {j : Nat} {old new : Stand} (here : t.stands[j]? = some old) (other : new ≠ .requiring) :
      ∀ k : Nat, (t.move j new).stands[k]? = some .requiring → k ∈ t.committed := by
    intro k there
    rw [getElem?_move (lt_length here)] at there
    split at there
    · exact absurd (Option.some.inj there) other
    · exact before k there
  cases step with
  | @require j here required =>
    intro k there
    rw [getElem?_move (lt_length here)] at there
    split at there
    · rename_i same
      rw [same]
      exact List.mem_append_right _ (List.mem_singleton_self j)
    · exact List.mem_append_left _ (before k there)
  | test here free | reconsider here | accept here | reject here | fulfil here | fail here | conclude here
  | release here released => exact moved here (by decide)

theorem requiring_run {search : Search} {count : Nat} (run : ReflTransGen Step (start search count) t) :
    ∀ k : Nat, t.stands[k]? = some .requiring → k ∈ t.committed := by
  induction run with
  | refl =>
    intro k there
    have member := List.mem_of_getElem? there
    cases (List.mem_replicate.mp member).2
  | tail _ step ih => exact step.requiring ih

theorem Step.grows (step : t.Step t') : t.committed ⊆ t'.committed ∧ t.accepted ⊆ t'.accepted := by
  cases step <;> simp [move]

theorem grows_run (run : ReflTransGen Step t t') : t.committed ⊆ t'.committed ∧ t.accepted ⊆ t'.accepted := by
  induction run with
  | refl => exact ⟨fun _ => id, fun _ => id⟩
  | tail _ step ih => exact ⟨List.Subset.trans ih.1 step.grows.1, List.Subset.trans ih.2 step.grows.2⟩

theorem Step.stays_required (step : t.Step t') (fair : t.Fair) (inside : k < t.stands.length)
    (required : t.search.isRequired (k + 1) = true) :
    t'.search.isRequired (k + 1) = true ∨ t'.stands[k]? = some .released ∨ t'.search.concluded = true := by
  obtain ⟨_, single⟩ := (fair.isRequired_iff inside).mp required
  cases step with
  | conclude here => exact .inr (.inr rfl)
  | @release j here search released =>
    by_cases same : k = j
    · refine .inr (.inl ?_)
      rw [getElem?_move (lt_length here), if_pos same]
    · -- the branch that is released was the only one that was not, so this one was released before
      have here' : t.stands[k]? = some t.stands[k] := List.getElem?_eq_getElem inside
      refine .inr (.inl ?_)
      rw [getElem?_move (lt_length here), if_neg same, here', Fair.alone here (by decide) single here' same]
  | _ => exact .inl required

theorem stays_required (fair : t.Fair) (run : ReflTransGen Step t t') (inside : k < t.stands.length)
    (required : t.search.isRequired (k + 1) = true) :
    t'.search.isRequired (k + 1) = true ∨ t'.stands[k]? = some .released ∨ t'.search.concluded = true := by
  induction run with
  | refl => exact .inl required
  | @tail b c run step ih =>
    have fair' := fair_run fair run
    rcases ih with still | released | concluded
    · exact step.stays_required fair' (by rw [length_run run]; exact inside) still
    · exact .inr (.inl (step.stays_released released))
    · exact .inr (.inr (step.stays_concluded fair' concluded))

end Trial

end Ownership
