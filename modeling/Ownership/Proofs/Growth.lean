import Ownership.Proofs.Records

namespace Ownership

namespace InferVar

structure Grows (v v' : InferVar) : Prop where
  kind : v'.kind = v.kind
  home : v'.home = v.home
  lower : ∀ b, v.lower = some b → v'.lower = some b
  uppers : v.uppers <+: v'.uppers
  successors : v.successors <+: v'.successors
  predecessors : v.predecessors <+: v'.predecessors
  facts : v.facts <+: v'.facts
  excluded : v.excluded <+: v'.excluded

theorem Grows.refl (v : InferVar) : v.Grows v :=
  ⟨rfl, rfl, fun _ => id, List.prefix_rfl, List.prefix_rfl, List.prefix_rfl, List.prefix_rfl, List.prefix_rfl⟩

theorem Grows.trans {v v' v'' : InferVar} (first : v.Grows v') (second : v'.Grows v'') : v.Grows v'' where
  kind := second.kind.trans first.kind
  home := second.home.trans first.home
  lower b known := second.lower b (first.lower b known)
  uppers := first.uppers.trans second.uppers
  successors := first.successors.trans second.successors
  predecessors := first.predecessors.trans second.predecessors
  facts := first.facts.trans second.facts
  excluded := first.excluded.trans second.excluded

def bounds (v : InferVar) : List Bound := v.lower.toList ++ v.uppers

theorem mem_bounds_upper {v : InferVar} {b c : Bound} :
    c ∈ bounds { v with uppers := v.uppers ++ [b] } ↔ c ∈ v.bounds ∨ c = b := by
  simp [bounds, or_assoc]

theorem mem_bounds_of_lower {v : InferVar} {b : Bound} (known : v.lower = some b) : b ∈ v.bounds :=
  List.mem_append_left _ (Option.mem_toList.mpr known)

/-- Bounds are of the kind of the variable, no upper bound is there twice, and for a permission the facts
and the exclusions are opposite to each other and do not contradict themselves. -/
structure Coherent (v : InferVar) : Prop where
  kinds : ∀ b ∈ v.bounds, b.term.kind? = some v.kind ∧ v.kind ≠ .place
  distinct : (v.uppers.map Bound.term).Nodup
  opposed : v.kind = .perm → ∀ p, v.hasFact p = true ↔ v.excludes p.opposite = true
  consistent : v.kind = .perm → ∀ p, v.hasFact p = true → v.hasFact p.opposite = false
  plain : v.kind ≠ .perm → v.excluded = []

theorem coherent_fresh (kind : Kind) (span : Span) (home : Universe) :
    Coherent { kind := kind, span := span, home := home } where
  kinds _ member := absurd member List.not_mem_nil
  distinct := List.nodup_nil
  opposed _ _ := by simp [hasFact, excludes]
  consistent _ _ known := nomatch known
  plain _ := rfl

section Recording

variable {v : InferVar}

theorem grows_lower (b : Bound) (free : v.lower = none) : v.Grows { v with lower := some b } :=
  { Grows.refl v with lower := fun _ known => nomatch free.symm.trans known }

theorem grows_upper (b : Bound) : v.Grows { v with uppers := v.uppers ++ [b] } :=
  { Grows.refl v with uppers := List.prefix_append .. }

theorem grows_fact (p : Predicate) (o : Obligation) : v.Grows { v with facts := v.facts ++ [(p, o)] } :=
  { Grows.refl v with facts := List.prefix_append .. }

theorem grows_excluded (p : Predicate) : v.Grows { v with excluded := v.excluded ++ [p] } :=
  { Grows.refl v with excluded := List.prefix_append .. }

theorem grows_fallback (d : Option Default) : v.Grows { v with fallback := d } := { Grows.refl v with }

variable (coherent : v.Coherent)
include coherent

theorem Coherent.lower {b : Bound} (kind : b.term.kind? = some v.kind) (bounded : v.kind ≠ .place) :
    Coherent { v with lower := some b } where
  kinds c member := by
    rcases List.mem_cons.mp member with rfl | member
    · exact ⟨kind, bounded⟩
    · exact coherent.kinds c (List.mem_append_right _ member)
  distinct := coherent.distinct
  opposed := coherent.opposed
  consistent := coherent.consistent
  plain := coherent.plain

theorem Coherent.upper {b : Bound} (kind : b.term.kind? = some v.kind) (bounded : v.kind ≠ .place)
    (new : v.hasUpper b.term = false) : Coherent { v with uppers := v.uppers ++ [b] } where
  kinds c member := by
    rcases mem_bounds_upper.mp member with old | rfl
    · exact coherent.kinds c old
    · exact ⟨kind, bounded⟩
  distinct := by
    have absent : b.term ∉ v.uppers.map Bound.term := fun member => by
      obtain ⟨c, listed, same⟩ := List.mem_map.mp member
      rw [hasUpper, List.any_eq_false] at new
      exact new c listed (by simpa using same)
    rw [List.map_append, List.map_singleton]
    refine List.nodup_append.mpr ⟨coherent.distinct, List.pairwise_singleton .., fun t listed u last same => ?_⟩
    rw [List.mem_singleton.mp last] at same
    exact absent (same ▸ listed)
  opposed := coherent.opposed
  consistent := coherent.consistent
  plain := coherent.plain

theorem Coherent.fallback (d : Option Default) : Coherent { v with fallback := d } :=
  ⟨coherent.kinds, coherent.distinct, coherent.opposed, coherent.consistent, coherent.plain⟩

theorem Coherent.edges (after before : List InferIndex) :
    Coherent { v with successors := after, predecessors := before } :=
  ⟨coherent.kinds, coherent.distinct, coherent.opposed, coherent.consistent, coherent.plain⟩

theorem Coherent.fact (p : Predicate) (o : Obligation) (other : v.kind ≠ .perm) :
    Coherent { v with facts := v.facts ++ [(p, o)] } where
  kinds := coherent.kinds
  distinct := coherent.distinct
  opposed perm := absurd perm other
  consistent perm := absurd perm other
  plain := coherent.plain

theorem Coherent.factOfPerm {p : Predicate} (o : Obligation) (perm : v.kind = .perm)
    (allowed : v.excludes p = false) :
    Coherent { v with facts := v.facts ++ [(p, o)], excluded := v.excluded ++ [p.opposite] } where
  kinds := coherent.kinds
  distinct := coherent.distinct
  opposed _ q := by
    have old := coherent.opposed perm q
    have opposite : p = q ↔ q.opposite = p.opposite := by cases p <;> cases q <;> decide
    simp only [hasFact, excludes, List.any_append, List.any_cons, List.any_nil, Bool.or_false,
      Bool.or_eq_true, decide_eq_true_eq, List.contains_eq_mem, List.mem_append,
      List.mem_singleton] at old ⊢
    rw [old, opposite]
  consistent _ q known := by
    have unknown : v.hasFact p.opposite = false := by
      rw [← Bool.not_eq_true, coherent.opposed perm, Predicate.opposite_opposite, allowed]
      decide
    have old := coherent.consistent perm q
    have apart := Predicate.opposite_ne q
    simp only [hasFact, List.any_append, List.any_cons, List.any_nil, Bool.or_false, Bool.or_eq_true,
      Bool.or_eq_false_iff, decide_eq_true_eq, decide_eq_false_iff_not] at known unknown old ⊢
    rcases known with before | rfl
    · refine ⟨old before, fun same => ?_⟩
      have : p.opposite = q := by rw [same, Predicate.opposite_opposite]
      rw [this, before] at unknown
      cases unknown
    · exact ⟨unknown, fun same => apart same.symm⟩
  plain other := absurd perm other

theorem Coherent.excludes_opposite {p : Predicate} (perm : v.kind = .perm) : v.excludes p.opposite = v.hasFact p := by
  rw [Bool.eq_iff_iff]
  exact (coherent.opposed perm p).symm

end Recording

end InferVar

namespace Session

variable {s s' s'' : Session}

def Grows (s s' : Session) : Prop :=
  ∀ (i : InferIndex) (v : InferVar), s.inferVars[i]? = some v →
    ∃ v', s'.inferVars[i]? = some v' ∧ v.Grows v'

theorem Grows.refl (s : Session) : s.Grows s := fun _ v found => ⟨v, found, .refl v⟩

theorem Grows.trans (first : s.Grows s') (second : s'.Grows s'') : s.Grows s'' := by
  intro i v found
  obtain ⟨v', found', grows⟩ := first i v found
  obtain ⟨v'', found'', grows'⟩ := second i v' found'
  exact ⟨v'', found'', grows.trans grows'⟩

theorem Grows.of_same (same : s'.inferVars = s.inferVars) : s.Grows s' :=
  fun _ v found => ⟨v, same ▸ found, .refl v⟩

/-- Edges are known at both ends, join different variables of one kind and lead nowhere else. -/
structure Mirrored (s : Session) : Prop where
  after : ∀ (i : InferIndex) (v : InferVar), s.inferVars[i]? = some v → ∀ j ∈ v.successors,
    j ≠ i ∧ ∃ u : InferVar, s.inferVars[j]? = some u ∧ u.kind = v.kind ∧ i ∈ u.predecessors
  before : ∀ (i : InferIndex) (v : InferVar), s.inferVars[i]? = some v → ∀ j ∈ v.predecessors,
    ∃ u : InferVar, s.inferVars[j]? = some u ∧ u.kind = v.kind ∧ i ∈ u.successors

theorem mirrored_of_none (none : s.inferVars = []) : s.Mirrored where
  after i v found := by simp [none] at found
  before i v found := by simp [none] at found

theorem Mirrored.of_same (mirrored : s.Mirrored) (same : s'.inferVars = s.inferVars) : s'.Mirrored := by
  refine ⟨fun i v found => ?_, fun i v found => ?_⟩
  all_goals rw [same] at *
  · exact mirrored.after i v found
  · exact mirrored.before i v found

section Modifying

variable {i : InferIndex} {v : InferVar} {f : InferVar → InferVar}

theorem getElem?_modify_cases (changed : s'.inferVars = s.inferVars.modify i f) {k : InferIndex} {u' : InferVar}
    (found : s'.inferVars[k]? = some u') : ∃ u, s.inferVars[k]? = some u ∧ (k = i ∧ u' = f u ∨ k ≠ i ∧ u' = u) := by
  rw [changed, List.getElem?_modify] at found
  obtain ⟨u, known, rfl⟩ := Option.map_eq_some_iff.mp found
  refine ⟨u, known, ?_⟩
  split
  · rename_i same
    exact .inl ⟨same.symm, rfl⟩
  · rename_i apart
    exact .inr ⟨Ne.symm apart, rfl⟩

theorem Grows.modify (changed : s'.inferVars = s.inferVars.modify i f)
    (grows : ∀ v, s.inferVars[i]? = some v → v.Grows (f v)) : s.Grows s' := by
  intro k u found
  by_cases same : i = k
  · subst same
    exact ⟨f u, by rw [changed, List.getElem?_modify_eq, found]; rfl, grows u found⟩
  · exact ⟨u, by rw [changed, List.getElem?_modify_ne (h := same), found], .refl u⟩

theorem Mirrored.modify (mirrored : s.Mirrored) (changed : s'.inferVars = s.inferVars.modify i f)
    (same : ∀ v, (f v).kind = v.kind ∧ (f v).successors = v.successors ∧ (f v).predecessors = v.predecessors) :
    s'.Mirrored := by
  have forward {k : InferIndex} {u : InferVar} (found : s.inferVars[k]? = some u) :
      ∃ u', s'.inferVars[k]? = some u' ∧ u'.kind = u.kind ∧ u'.successors = u.successors ∧
        u'.predecessors = u.predecessors := by
    by_cases mine : i = k
    · subst mine
      exact ⟨f u, by rw [changed, List.getElem?_modify_eq, found]; rfl, same u⟩
    · exact ⟨u, by rw [changed, List.getElem?_modify_ne (h := mine), found], rfl, rfl, rfl⟩
  have backward {k : InferIndex} {u' : InferVar} (found : s'.inferVars[k]? = some u') :
      ∃ u, s.inferVars[k]? = some u ∧ u'.kind = u.kind ∧ u'.successors = u.successors ∧
        u'.predecessors = u.predecessors := by
    obtain ⟨u, known, ⟨_, rfl⟩ | ⟨_, rfl⟩⟩ := getElem?_modify_cases changed found
    · exact ⟨u, known, same u⟩
    · exact ⟨u', known, rfl, rfl, rfl⟩
  refine ⟨fun k u' found j member => ?_, fun k u' found j member => ?_⟩
  · obtain ⟨u, known, kind, after, _⟩ := backward found
    rw [after] at member
    obtain ⟨apart, w, target, same, known⟩ := mirrored.after k u known j member
    obtain ⟨w', target', kind', _, before⟩ := forward target
    exact ⟨apart, w', target', by rw [kind', kind, same], before ▸ known⟩
  · obtain ⟨u, known, kind, _, before⟩ := backward found
    rw [before] at member
    obtain ⟨w, target, same, known⟩ := mirrored.before k u known j member
    obtain ⟨w', target', kind', after, _⟩ := forward target
    exact ⟨w', target', by rw [kind', kind, same], after ▸ known⟩

end Modifying

section Linking

variable {i j : InferIndex} {v u : InferVar} (apart : i ≠ j) (found : s.inferVars[i]? = some v)
variable (target : s.inferVars[j]? = some u) (changed : s'.inferVars =
  (s.inferVars.modify i (·.withSuccessor j)).modify j (·.withPredecessor i))
include apart changed

theorem getElem?_link {k : InferIndex} {w : InferVar} (known : s.inferVars[k]? = some w) :
    ∃ after before, s'.inferVars[k]? = some { w with successors := after, predecessors := before } ∧
      (w.successors <+: after ∧ ∀ x, x ∈ after ↔ x ∈ w.successors ∨ k = i ∧ x = j) ∧
      w.predecessors <+: before ∧ ∀ x, x ∈ before ↔ x ∈ w.predecessors ∨ k = j ∧ x = i := by
  by_cases start : k = i
  · subst start
    refine ⟨w.successors ++ [j], w.predecessors, ?_, ⟨List.prefix_append .., ?_⟩, List.prefix_rfl, ?_⟩
    · rw [changed, List.getElem?_modify_ne (h := Ne.symm apart), List.getElem?_modify_eq, known]
      rfl
    · simp
    · simp [apart]
  by_cases ending : k = j
  · subst ending
    obtain ⟨before, same, back, listed⟩ := w.withPredecessor_eq i
    have there : s'.inferVars[k]? = some (w.withPredecessor i) := by
      rw [changed, List.getElem?_modify_eq, List.getElem?_modify_ne (h := apart), known]
      rfl
    exact ⟨_, _, same ▸ there, ⟨List.prefix_rfl, by simp [start]⟩, back, by simp [listed]⟩
  · refine ⟨_, _, ?_, ⟨List.prefix_rfl, by simp [start]⟩, List.prefix_rfl, by simp [ending]⟩
    rw [changed, List.getElem?_modify_ne (h := Ne.symm ending), List.getElem?_modify_ne (h := Ne.symm start),
      known]

theorem Grows.link : s.Grows s' := by
  intro k w known
  obtain ⟨after, before, there, ⟨forth, _⟩, back, _⟩ := getElem?_link apart changed known
  exact ⟨_, there, { InferVar.Grows.refl w with successors := forth, predecessors := back }⟩

theorem of_getElem?_link {k : InferIndex} {w' : InferVar} (there : s'.inferVars[k]? = some w') :
    ∃ w after before, s.inferVars[k]? = some w ∧
      w' = { w with successors := after, predecessors := before } ∧
      (∀ x, x ∈ after ↔ x ∈ w.successors ∨ k = i ∧ x = j) ∧
      ∀ x, x ∈ before ↔ x ∈ w.predecessors ∨ k = j ∧ x = i := by
  have inside : k < s.inferVars.length := by
    have := (List.getElem?_eq_some_iff.mp there).1
    rwa [changed, List.length_modify, List.length_modify] at this
  have known := List.getElem?_eq_getElem inside
  obtain ⟨after, before, there', ⟨_, forth⟩, _, back⟩ := getElem?_link apart changed known
  exact ⟨_, after, before, known, Option.some.inj (there.symm.trans there'), forth, back⟩

include found target in
theorem Mirrored.link (mirrored : s.Mirrored) (kind : u.kind = v.kind) : s'.Mirrored := by
  refine ⟨fun k w' there x member => ?_, fun k w' there x member => ?_⟩
  · obtain ⟨w, after, before, known, rfl, forth, _⟩ := of_getElem?_link apart changed there
    rcases (forth x).mp member with old | ⟨rfl, rfl⟩
    · obtain ⟨other, y, end_, same, mirror⟩ := mirrored.after k w known x old
      obtain ⟨_, _, end', _, _, back⟩ := getElem?_link apart changed end_
      exact ⟨other, _, end', same, (back k).mpr (.inl mirror)⟩
    · obtain ⟨_, _, end', _, _, back⟩ := getElem?_link apart changed target
      cases known.symm.trans found
      exact ⟨Ne.symm apart, _, end', kind, (back k).mpr (.inr ⟨rfl, rfl⟩)⟩
  · obtain ⟨w, after, before, known, rfl, _, back⟩ := of_getElem?_link apart changed there
    rcases (back x).mp member with old | ⟨rfl, rfl⟩
    · obtain ⟨y, start, same, mirror⟩ := mirrored.before k w known x old
      obtain ⟨_, _, start', ⟨_, forth⟩, _⟩ := getElem?_link apart changed start
      exact ⟨_, start', same, (forth k).mpr (.inl mirror)⟩
    · obtain ⟨_, _, start', ⟨_, forth⟩, _⟩ := getElem?_link apart changed found
      cases known.symm.trans target
      exact ⟨_, start', kind.symm, (forth k).mpr (.inr ⟨rfl, rfl⟩)⟩

end Linking

theorem Mirrored.fresh (mirrored : s.Mirrored) {v : InferVar} (added : s'.inferVars = s.inferVars ++ [v])
    (after : v.successors = []) (before : v.predecessors = []) : s'.Mirrored := by
  have forward {k : InferIndex} {u : InferVar} (found : s.inferVars[k]? = some u) :
      s'.inferVars[k]? = some u := by
    rw [added, List.getElem?_append_left (List.getElem?_eq_some_iff.mp found).1, found]
  have backward {k : InferIndex} {u : InferVar} (found : s'.inferVars[k]? = some u) :
      s.inferVars[k]? = some u ∨ u = v := by
    rw [added] at found
    rcases Nat.lt_or_ge k s.inferVars.length with inside | outside
    · rw [List.getElem?_append_left inside] at found
      exact .inl found
    · rw [List.getElem?_append_right outside, List.getElem?_singleton] at found
      split at found
      · exact .inr (Option.some.inj found).symm
      · cases found
  refine ⟨fun k u found j member => ?_, fun k u found j member => ?_⟩
  · rcases backward found with old | rfl
    · obtain ⟨apart, w, target, kind, known⟩ := mirrored.after k u old j member
      exact ⟨apart, w, forward target, kind, known⟩
    · rw [after] at member
      cases member
  · rcases backward found with old | rfl
    · obtain ⟨w, target, kind, known⟩ := mirrored.before k u old j member
      exact ⟨w, forward target, kind, known⟩
    · rw [before] at member
      cases member

theorem Grows.fresh {v : InferVar} (added : s'.inferVars = s.inferVars ++ [v]) : s.Grows s' := by
  intro k u found
  refine ⟨u, ?_, .refl u⟩
  rw [added, List.getElem?_append_left (List.getElem?_eq_some_iff.mp found).1, found]

end Session

end Ownership
