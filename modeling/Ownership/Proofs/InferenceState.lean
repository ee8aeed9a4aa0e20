import Ownership.Proofs.BoundWalks
import Ownership.Proofs.Sessions

namespace Ownership

variable {β : Type}

open Relation (ReflTransGen)

def Regime.kinded : Regime where
  placeArguments := True
  awaited _ := False
  barred _ := False
  guarded _ := False
  level _ := none
  places_barred := Variable.place_of_none

theorem InferVar.Coherent.disjoint {v : InferVar} (coherent : v.Coherent) (perm : v.kind = .perm) {p : Predicate}
    (fact : v.hasFact p = true) : v.excludes p = false := by
  have other := coherent.consistent perm p fact
  rw [← Predicate.opposite_opposite p, coherent.excludes_opposite perm]
  exact other

structure Session.InferenceCoherent (s : Session) : Prop where
  bounds : ∀ (i : InferIndex) v, s.inferVars[i]? = some v →
    ∀ b ∈ v.bounds, b.term.kind? = some v.kind ∧ v.kind ≠ .place
  uppers : ∀ (i : InferIndex) v, s.inferVars[i]? = some v → (v.uppers.map Bound.term).Nodup
  edges : ∀ (i : InferIndex) v, s.inferVars[i]? = some v →
    (∀ j ∈ v.successors ++ v.predecessors, j < s.inferVars.length) ∧ i ∉ v.successors ∧
      ∀ (j : InferIndex) u, s.inferVars[j]? = some u → (j ∈ v.successors ↔ i ∈ u.predecessors)
  facts : ∀ (i : InferIndex) v, s.inferVars[i]? = some v → v.kind = .perm → ∀ p,
    (v.hasFact p = true ↔ v.excludes p.opposite = true) ∧ ¬ (v.hasFact p = true ∧ v.excludes p = true) ∧
      ¬ (v.hasFact p = true ∧ v.hasFact p.opposite = true)
  types : ∀ (i : InferIndex) v, s.inferVars[i]? = some v → v.kind = .type → v.excluded = []

theorem Regime.Sound.inferenceCoherent {R : Regime} {s : Session} (sound : R.Sound s) : s.InferenceCoherent where
  bounds i v found := (sound.vars i v found).coherent.kinds
  uppers i v found := (sound.vars i v found).coherent.distinct
  edges i v found := by
    have known {j : InferIndex} {u : InferVar} (found : s.inferVars[j]? = some u) : j < s.inferVars.length :=
      (List.getElem?_eq_some_iff.mp found).1
    refine ⟨fun j edge => ?_, fun loop => (sound.mirrored.after i v found i loop).1 rfl,
      fun j u target => ⟨fun edge => ?_, fun edge => ?_⟩⟩
    · rcases List.mem_append.mp edge with after | before
      · obtain ⟨_, _, found, _⟩ := sound.mirrored.after i v found j after
        exact known found
      · obtain ⟨_, found, _⟩ := sound.mirrored.before i v found j before
        exact known found
    · obtain ⟨_, _, found, _, back⟩ := sound.mirrored.after i v found j edge
      exact Option.some.inj (found.symm.trans target) ▸ back
    · obtain ⟨_, there, _, forth⟩ := sound.mirrored.before j u target i edge
      exact Option.some.inj (there.symm.trans found) ▸ forth
  facts i v found perm p := by
    have coherent := (sound.vars i v found).coherent
    refine ⟨coherent.opposed perm p, fun both => ?_, fun both => ?_⟩
    · exact Bool.false_ne_true ((coherent.disjoint perm both.1).symm.trans both.2)
    · exact Bool.false_ne_true ((coherent.consistent perm p both.1).symm.trans both.2)
  types i v found type := (sound.vars i v found).coherent.plain fun perm => by cases type.symm.trans perm

namespace Stage

/-- In every state of every session what is known of its inference variables fits together, and every
step only adds to it. -/
theorem inference_coherent_and_grows {s : Session} (begins : s.Begins .kinded) {σ : Stage β}
    (reached : ReflTransGen (Proceeds .kinded) ⟨{ session := s }, []⟩ σ) :
    σ.machine.session.InferenceCoherent ∧
      ∀ τ, σ.Proceeds .kinded τ → σ.machine.session.Grows τ.machine.session := by
  obtain ⟨under, _⟩ := (under_idle [] begins.sound).run reached
  exact ⟨under.sound.inferenceCoherent, fun τ step => (under.proceeds step).2.1.grows⟩

def inferring : Stage Unit :=
  ⟨{ session := ((Action.freshInferVar (.root []) .perm default).exec (.blank 0)).2 }, []⟩

def copyGoal : Goal .unit :=
  .require (.root []) .copy (.perm (.infer 0)) { requirement := .predicate default (.perm (.infer 0)) .copy }

def copying : Stage Unit := ⟨inferring.machine.spawn "" (Rules.answer .unit copyGoal), []⟩

theorem reached_copying (fuel : Nat) :
    ReflTransGen (Proceeds .kinded) ⟨{ session := .blank 0 }, []⟩ (copying.run Rules.answer fuel) := by
  have made : Proceeds .kinded ⟨{ session := .blank 0 }, []⟩ inferring := .prepare (.fresh (.root []) .perm default)
  have known : copyGoal.Fits .kinded inferring.machine.session := ⟨_, rfl, rfl⟩
  have asked : Proceeds .kinded inferring copying := .call "" known
  exact .head made (.head asked (proceeds_of_turns (turns_run Rules.answer fuel copying)))

theorem inference_coherent_and_grows_copying :
    ((copying.run Rules.answer 6).machine.session.inferVars.map fun v => (v.facts.map Prod.fst, v.excluded)) =
        [([], [])] ∧
      ((copying.run Rules.answer 7).machine.session.inferVars.map fun v => (v.facts.map Prod.fst, v.excluded)) =
        [([.copy], [.move])] ∧
      (copying.run Rules.answer 7).machine.session.InferenceCoherent ∧
      (copying.run Rules.answer 7).machine.session.Grows
        (copying.run Rules.answer 7).machine.settleOldest.2.session := by
  have begins : (Session.blank 0).Begins .kinded := Session.begins_blank fun v _ => ⟨nofun, nofun⟩
  obtain ⟨coherent, grows⟩ := inference_coherent_and_grows begins (reached_copying 7)
  exact ⟨by decide +kernel, by decide +kernel, coherent, grows _ .settle⟩

end Stage

end Ownership
