import Ownership.Race.Panel

namespace Ownership

namespace Race

variable {ε : Type} {decisive : Bool} {answers : List (Except ε Bool)}

def ends (decisive : Bool) : Except ε Bool → Bool
  | .ok b => b == decisive
  | .error _ => true

theorem ends_iff {a : Except ε Bool} : ends decisive a = true ↔ a = .ok decisive ∨ ∃ e, a = .error e := by
  cases a <;> simp [ends]

theorem foldl_complete_of_settled {r : Race ε} {o : Except ε Bool} (settled : r.outcome = some o) :
    (answers.foldl complete r).outcome = some o := by
  induction answers generalizing r with
  | nil => exact settled
  | cons a answers ih =>
    have same : r.complete a = r := by simp only [complete, settled]
    rw [List.foldl_cons, same]
    exact ih settled

theorem complete_of_ends {r : Race ε} {a : Except ε Bool} (pending : r.outcome = none)
    (stops : ends r.decisive a = true) : (r.complete a).outcome = some a := by
  cases a with
  | error e => simp only [complete, pending]
  | ok b =>
    obtain rfl : b = r.decisive := beq_iff_eq.mp stops
    simp only [complete, pending, if_pos]

theorem complete_of_not_ends {r : Race ε} {a : Except ε Bool} (pending : r.outcome = none)
    (goes : ¬ ends r.decisive a = true) : r.complete a = { r with
      remaining := r.remaining - 1, outcome := if r.remaining - 1 = 0 then some (.ok !r.decisive) else none } := by
  cases a with
  | error e => exact (goes rfl).elim
  | ok b =>
    have other : b ≠ r.decisive := fun same => goes (beq_iff_eq.mpr same)
    simp only [complete, pending, if_neg other]

theorem outcome_of_pending {r : Race ε} (pending : r.outcome = none) (open_ : r.remaining ≠ 0)
    (fits : answers.length ≤ r.remaining) : (answers.foldl complete r).outcome =
      (answers.find? (ends r.decisive)).or
        (if answers.length = r.remaining then some (.ok !r.decisive) else none) := by
  induction answers generalizing r with
  | nil => simpa [pending] using Ne.symm open_
  | cons a answers ih =>
    rw [List.foldl_cons]
    by_cases stops : ends r.decisive a = true
    · rw [foldl_complete_of_settled (complete_of_ends pending stops), List.find?_cons_of_pos stops]
      rfl
    · rw [complete_of_not_ends pending stops, List.find?_cons_of_neg stops]
      by_cases last : r.remaining - 1 = 0
      · have alone : answers = [] := List.eq_nil_of_length_eq_zero (by simp at fits; omega)
        have all : 1 = r.remaining := by omega
        simp [alone, ← all]
      · rw [ih (if_neg last) last (by simp at fits ⊢; omega), List.length_cons]
        simp only [show answers.length = r.remaining - 1 ↔ answers.length + 1 = r.remaining by omega]

theorem outcome_start {count : Nat} (fits : answers.length ≤ count) :
    (answers.foldl complete (start decisive count)).outcome =
      (answers.find? (ends decisive)).or (if answers.length = count then some (.ok !decisive) else none) := by
  cases count with
  | zero => simp [List.eq_nil_of_length_eq_zero (Nat.le_zero.mp fits), start]
  | succ count => exact outcome_of_pending rfl (Nat.succ_ne_zero _) fits

end Race

namespace Panel

/-- The panel of tests of which one answer `decisive` decides: `any` or `all`. -/
def connective (decisive : Bool) (count : Nat) : Panel := if decisive then any count else all count

def hearing (answer : Nat → Except Failure Bool) (p : Panel) (order : List Nat) : Panel :=
  order.foldl (fun p child => p.hear child (answer child)) p

variable {answer : Nat → Except Failure Bool} {count : Nat} {order : List Nat}

theorem hearing_test {p : Panel} {r : Race Failure} (tests : p.tally = .test r)
    (within : ∀ child ∈ order, child < p.children ∧ child ∉ p.heard) (distinct : order.Nodup) :
    (p.hearing answer order).tally = .test ((order.map answer).foldl Race.complete r) := by
  induction order generalizing p r with
  | nil => exact tests
  | cons child order ih =>
    obtain ⟨fresh, distinct⟩ := List.nodup_cons.mp distinct
    have heard : p.hear child (answer child) =
        { p with heard := p.heard ++ [child], tally := .test (r.complete (answer child)) } := by
      rw [hear, if_pos (within child List.mem_cons_self), count]
      simp only [tests]
    refine ih (p := p.hear child (answer child)) (by rw [heard]) (fun other member => ?_) distinct
    obtain ⟨below, new⟩ := within other (List.mem_cons_of_mem _ member)
    rw [heard]
    refine ⟨below, fun old => ?_⟩
    rcases List.mem_append.mp old with old | same
    · exact new old
    · exact fresh (List.mem_singleton.mp same ▸ member)

/-- The first child whose answer ends the race. -/
def ender (decisive : Bool) (answer : Nat → Except Failure Bool) (order : List Nat) : Option Nat :=
  order.find? fun child => Race.ends decisive (answer child)

theorem ender_eq_some {decisive : Bool} {child : Nat} (found : ender decisive answer order = some child) :
    child ∈ order ∧ (answer child = .ok decisive ∨ ∃ e, answer child = .error e) :=
  ⟨List.mem_of_find?_eq_some found, Race.ends_iff.mp (List.find?_some found :)⟩

variable (decisive : Bool) (each : order.Perm (List.range count))
include each

theorem verdict_take (k : Nat) : ((connective decisive count).hearing answer (order.take k)).verdict =
    (((ender decisive answer (order.take k)).map answer).or
      (if count ≤ k then some (.ok !decisive) else none)).map (·.map .truth) := by
  have tests : (connective decisive count).tally = .test (.start decisive count) ∧
      (connective decisive count).heard = [] ∧ (connective decisive count).children = count := by
    cases decisive <;> exact ⟨rfl, rfl, rfl⟩
  have within : ∀ child ∈ order.take k, child < count := fun child member =>
    List.mem_range.mp (each.mem_iff.mp (List.mem_of_mem_take member))
  have distinct : (order.take k).Nodup := (each.nodup_iff.mpr List.nodup_range).sublist (List.take_sublist k order)
  have length : ((order.take k).map answer).length = min k count := by
    simpa using congrArg (min k) each.length_eq
  rw [verdict, hearing_test tests.1 (by simpa [tests.2] using within) distinct, Tally.verdict,
    Race.outcome_start (length ▸ Nat.min_le_right k count), length, List.find?_map]
  simp only [show min k count = count ↔ count ≤ k by omega]
  rfl

theorem verdict_whole : ((connective decisive count).hearing answer order).verdict =
    some ((((ender decisive answer order).map answer).getD (.ok !decisive)).map .truth) := by
  have length : order.length = count := by simpa using each.length_eq
  have whole : ((connective decisive count).hearing answer (order.take count)).verdict = _ :=
    verdict_take decisive each count
  rw [List.take_of_length_le (Nat.le_of_eq length), if_pos (Nat.le_refl count)] at whole
  rw [whole]
  cases ender decisive answer order <;> rfl

theorem verdict_of_ok (succeeds : ∀ child < count, ∃ b, answer child = .ok b) :
    ∃ b, ((connective decisive count).hearing answer order).verdict = some (.ok (.truth b)) ∧
      (b = decisive ↔ ∃ child < count, answer child = .ok decisive) := by
  rw [verdict_whole decisive each]
  have listed {child : Nat} : child ∈ order ↔ child < count := each.mem_iff.trans List.mem_range
  cases found : ender decisive answer order with
  | none =>
    refine ⟨!decisive, rfl, fun same => by simp at same, fun ⟨child, below, holds⟩ => ?_⟩
    exact (List.find?_eq_none.mp found child (listed.mpr below) (Race.ends_iff.mpr (.inl holds))).elim
  | some child =>
    obtain ⟨member, holds | ⟨e, fails⟩⟩ := ender_eq_some found
    · have below := listed.mp member
      exact ⟨decisive, congrArg (fun a => some (Except.map _ a)) holds, fun _ => ⟨child, below, holds⟩, fun _ => rfl⟩
    · obtain ⟨b, told⟩ := succeeds child (listed.mp member)
      cases told.symm.trans fails

theorem verdict_fails_iff : (∃ e, ((connective decisive count).hearing answer order).verdict = some (.error e)) ↔
    ∃ before child after, order = before ++ child :: after ∧ (∃ e, answer child = .error e) ∧
      ∀ earlier ∈ before, answer earlier ≠ .ok decisive := by
  rw [verdict_whole decisive each]
  constructor
  · rintro ⟨e, fails⟩
    cases found : ender decisive answer order with
    | none => simp [found, Except.map] at fails
    | some child =>
      obtain ⟨stops, before, after, split, passed⟩ := List.find?_eq_some_iff_append.mp found
      refine ⟨before, child, after, split, ?_, fun earlier member holds => ?_⟩
      · rcases Race.ends_iff.mp stops with holds | fails
        · simp [found, holds, Except.map] at fails
        · exact fails
      · simpa [holds, Race.ends] using passed earlier member
  · rintro ⟨before, child, after, rfl, fails, passed⟩
    have first : ender decisive answer (before ++ child :: after) =
        (ender decisive answer before).or (some child) := by
      have stops : Race.ends decisive (answer child) = true := Race.ends_iff.mpr (.inr fails)
      simp [ender, List.find?_append, stops]
    rw [first]
    cases found : ender decisive answer before with
    | none => exact fails.imp fun e fails => congrArg (fun a => some (Except.map _ a)) fails
    | some earlier =>
      obtain ⟨member, holds | ⟨e, fails⟩⟩ := ender_eq_some found
      · exact (passed earlier member holds).elim
      · exact ⟨e, congrArg (fun a => some (Except.map _ a)) fails⟩

theorem verdict_stays {k l : Nat} {v : Except Failure Verdict} (le : k ≤ l)
    (told : ((connective decisive count).hearing answer (order.take k)).verdict = some v) :
    ((connective decisive count).hearing answer (order.take l)).verdict = some v := by
  rw [verdict_take decisive each] at told ⊢
  by_cases all : count ≤ k
  · have length : order.length = count := by simpa using each.length_eq
    rw [List.take_of_length_le (by omega), if_pos (by omega)] at told ⊢
    exact told
  · cases found : ender decisive answer (order.take k) with
    | none => simp [found, all] at told
    | some child =>
      have more : ender decisive answer (order.take l) = some child :=
        (List.take_prefix_take_left le).find?_eq_some found
      rw [found] at told
      rw [more]
      exact told

/-- However the tests of a panel come to their answers, the panel decides the connective of those answers. -/
theorem connective_in_any_order :
    ((∀ child < count, ∃ b, answer child = .ok b) →
      (∃ b, ((any count).hearing answer order).verdict = some (.ok (.truth b)) ∧
        (b = true ↔ ∃ child < count, answer child = .ok true)) ∧
      ∃ b, ((all count).hearing answer order).verdict = some (.ok (.truth b)) ∧
        (b = true ↔ ∀ child < count, answer child = .ok true)) ∧
    ∀ p decisive, p = any count ∧ decisive = true ∨ p = all count ∧ decisive = false →
      (∀ k, (p.hearing answer (order.take k)).verdict ≠ none ↔
        count ≤ k ∨ ∃ child ∈ order.take k, answer child = .ok decisive ∨ ∃ e, answer child = .error e) ∧
      ((∃ e, (p.hearing answer order).verdict = some (.error e)) ↔
        ∃ before child after, order = before ++ child :: after ∧ (∃ e, answer child = .error e) ∧
          ∀ earlier ∈ before, answer earlier ≠ .ok decisive) ∧
      ∀ k l v, k ≤ l → (p.hearing answer (order.take k)).verdict = some v →
        (p.hearing answer (order.take l)).verdict = some v := by
  refine ⟨fun succeeds => ⟨verdict_of_ok true each succeeds, ?_⟩, fun p decisive which => ?_⟩
  · obtain ⟨b, told, iff⟩ := verdict_of_ok false each succeeds
    refine ⟨b, told, ?_⟩
    rw [← Bool.not_eq_false, iff]
    simp only [not_exists, not_and]
    refine forall₂_congr fun child below => ?_
    obtain ⟨b, same⟩ := succeeds child below
    cases b <;> simp [same]
  obtain rfl : p = connective decisive count := by
    rcases which with ⟨rfl, rfl⟩ | ⟨rfl, rfl⟩ <;> rfl
  refine ⟨fun k => ?_, verdict_fails_iff decisive each, fun _ _ _ => verdict_stays decisive each⟩
  simp only [verdict_take decisive each, ← Race.ends_iff]
  cases found : ender decisive answer (order.take k) with
  | none =>
    have passed := List.find?_eq_none.mp found
    by_cases all : count ≤ k <;> simp [all]
    simpa using passed
  | some child =>
    have stops := ender_eq_some found
    simpa using .inr ⟨child, stops.1, Race.ends_iff.mpr stops.2⟩

omit each in
/-- The first child answers between the others: nothing is told before it, and it decides. -/
theorem connective_in_any_order_between :
    let answer : Nat → Except Failure Bool := fun child => .ok (child == 0)
    [2, 0, 1].Perm (List.range 3) ∧ ((any 3).hearing answer [2]).verdict = none ∧
      ((any 3).hearing answer [2, 0]).verdict = some (.ok (.truth true)) ∧
      ∃ b, ((any 3).hearing answer [2, 0, 1]).verdict = some (.ok (.truth b)) ∧
        (b = true ↔ ∃ child < 3, answer child = .ok true) := by
  intro answer
  have each : [2, 0, 1].Perm (List.range 3) := by decide
  exact ⟨each, rfl, rfl, ((connective_in_any_order each).1 fun child _ => ⟨child == 0, rfl⟩).1⟩

end Panel

end Ownership
