import Ownership.Proofs.Halting
import Ownership.Rules

namespace Ownership

open Relation (ReflTransGen)

/-- Run alone, the program ends with `r` and leaves the session `last`. -/
def Prog.Yields {α : Type} (p : Prog α) (start : Session) (r : Except Failure α) (last : Session) : Prop :=
  ∃ fuel, ∃ m : Machine α, (({ session := start } : Machine α).start 0 p).run Rules.answer fuel = m ∧
    m.queue = [] ∧ m.results = [(0, r)] ∧ m.session = last

def Goal.Yields {s : Shape} (g : Goal s) (start : Session) (r : Except Failure s.Value)
    (last : Session) : Prop :=
  ∃ fuel, ∃ m : Machine s.Value,
    (({ session := start } : Machine s.Value).start 0 (.ask g)).run Rules.answer fuel = m ∧
      m.queue = [] ∧ m.results = [(0, r)] ∧ m.session = last

namespace Machine

variable {β : Type} {rules : Rules}

theorem run_of_rest {m : Machine β} (queue : m.queue = []) (fuel : Nat) : m.run rules fuel = m := by
  have stuck : m.step rules = none := by rw [step, queue]
  cases fuel with
  | zero => rfl
  | succ fuel => rw [run, stuck]

theorem run_add (m : Machine β) (fuel more : Nat) : m.run rules (fuel + more) = (m.run rules fuel).run rules more := by
  induction fuel generalizing m with
  | zero => rw [Nat.zero_add, run]
  | succ fuel ih =>
    rw [Nat.succ_add, run, run]
    cases stepped : m.step rules with
    | some m' => exact ih m'
    | none =>
      have queue : m.queue = [] := by
        rw [step] at stepped
        split at stepped
        · assumption
        · cases stepped
      exact (run_of_rest queue more).symm

theorem run_eq_of_rest {m : Machine β} {fuel fuel' : Nat} (rest : (m.run rules fuel).queue = [])
    (rest' : (m.run rules fuel').queue = []) : m.run rules fuel = m.run rules fuel' := by
  rcases Nat.le_total fuel fuel' with le | le
  · obtain ⟨more, rfl⟩ := Nat.exists_eq_add_of_le le
    rw [run_add, run_of_rest rest]
  · obtain ⟨more, rfl⟩ := Nat.exists_eq_add_of_le le
    rw [run_add, run_of_rest rest']

end Machine

theorem Prog.Yields.unique {α : Type} {p : Prog α} {start last last' : Session} {r r' : Except Failure α}
    (first : p.Yields start r last) (second : p.Yields start r' last') : r = r' ∧ last = last' := by
  obtain ⟨fuel, m, rfl, rest, results, rfl⟩ := first
  obtain ⟨fuel', m', rfl, rest', results', rfl⟩ := second
  have same := Machine.run_eq_of_rest rest rest'
  rw [same, results'] at results
  cases results
  exact ⟨rfl, by rw [same]⟩

namespace Goal

variable {s : Shape} {g : Goal s} {start last last' : Session} {r r' : Except Failure s.Value}

theorem Yields.unique (first : g.Yields start r last) (second : g.Yields start r' last') :
    r = r' ∧ last = last' := Prog.Yields.unique first second

def aims (C : Contract) (g : Goal s) (w : Moment) : Aims C s.Value where
  root _ r v := ∃ w', C.Leads w w' ∧ C.Post g w' r v
  task _ _ := True
  root_later := fun ⟨w', leads, post⟩ later => ⟨w', leads, C.post_later post later⟩
  task_later _ _ := trivial
  task_post _ := trivial

theorem yields_of_settles {C : Contract} (never : ¬ C.Waits) (sound : C.Sound ⟨start, []⟩)
    (settles : ∀ w, C.Leads ⟨start, []⟩ w → Rules.answer.Settles C g w) :
    ∃ r last answers w, g.Yields start r last ∧ C.Leads ⟨start, []⟩ w ∧
      C.Post g w r ⟨last, answers⟩ ∧ C.Leads ⟨start, []⟩ ⟨last, answers⟩ := by
  have idle : Stage.Coherent (Rules.answer.Settles C) (aims C g ⟨start, []⟩) _ _
    ⟨{ session := start }, []⟩ := Stage.coherent_idle _ sound
  have begun : Stage.Coherent (Rules.answer.Settles C) (aims C g ⟨start, []⟩) _ _
      ⟨({ session := start } : Machine s.Value).start 0 (.ask g), []⟩ :=
    idle.start <| .ask fun w' leads =>
      ⟨settles w' leads, fun _ => trivial, fun _ _ _ post => ⟨w', leads, post⟩⟩
  obtain ⟨fuel, rest⟩ := (begun.ends never).rests
  have turns := Stage.turns_run Rules.answer fuel
    ⟨({ session := start } : Machine s.Value).start 0 (.ask g), []⟩
  have run := Stage.machine_run Rules.answer fuel
    ⟨({ session := start } : Machine s.Value).start 0 (.ask g), []⟩
  generalize Stage.run Rules.answer fuel _ = τ at rest turns run
  obtain ⟨m, answers⟩ := τ
  obtain ⟨roll, last, leads⟩ := begun.turns Rules.verified_settles turns
  obtain ⟨_, counts⟩ := last.told_of_rest never rest
  have keys : m.results.map Prod.fst = [0] := by
    refine List.perm_singleton.mp (List.perm_iff_count.mpr fun slot => (counts slot).trans ?_)
    rw [List.count_singleton, beq_eq_decide, Nat.zero_add]
    by_cases same : slot = 0
    · simp [same]
    · simp [same, Ne.symm same]
  obtain ⟨⟨slot, r⟩, results, found⟩ := List.map_eq_singleton_iff.mp keys
  obtain rfl : slot = 0 := found
  have told : (0, r) ∈ m.results := results ▸ List.mem_singleton_self _
  obtain ⟨w, asked, post⟩ := last.results _ told
  exact ⟨r, m.session, answers, w, ⟨fuel, m, run.symm, rest, results, rfl⟩, asked, post, leads⟩

theorem Yields.post {C : Contract} {A : Asks} (yields : g.Yields start r last) (verified : Rules.answer.Verified C A)
    (sound : C.Sound ⟨start, []⟩) (asked : ∀ w, C.Leads ⟨start, []⟩ w → A g w) :
    ∃ answers w, C.Leads ⟨start, []⟩ w ∧ C.Post g w r ⟨last, answers⟩ := by
  obtain ⟨fuel, m, run, _, results, rfl⟩ := yields
  have begun : Stage.Coherent A (aims C g ⟨start, []⟩) _ _
      ⟨({ session := start } : Machine s.Value).start 0 (.ask g), []⟩ :=
    (Stage.coherent_idle _ sound).start <| .ask fun w' leads =>
      ⟨asked w' leads, fun _ => trivial, fun _ _ _ post => ⟨w', leads, post⟩⟩
  have turns := Stage.turns_run Rules.answer fuel
    ⟨({ session := start } : Machine s.Value).start 0 (.ask g), []⟩
  obtain ⟨_, last, _⟩ := begun.turns verified turns
  have same : (Stage.run Rules.answer fuel
      ⟨({ session := start } : Machine s.Value).start 0 (.ask g), []⟩).machine = m := by
    rw [Stage.machine_run, run]
  have told : (0, r) ∈ m.results := results ▸ List.mem_singleton_self _
  rw [← same] at told ⊢
  obtain ⟨w, leads, post⟩ := last.results _ told
  exact ⟨_, w, leads, post⟩

end Goal

end Ownership
