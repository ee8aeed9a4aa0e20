import Ownership.Proofs.Conduct
import Ownership.Proofs.Records

namespace Ownership

inductive Change where
  | lower (i : InferIndex) (b : Bound)
  | upper (i : InferIndex) (b : Bound)
  | edge (lower upper : InferIndex)
  | fact (i : InferIndex) (p : Predicate) (o : Obligation)
  | exclusion (i : InferIndex) (p : Predicate)

namespace Change

def action : Change → Action Bool
  | lower i b => do
    Action.setLowerBound i b
    return true
  | upper i b => Action.addUpperBound i b
  | edge i j => Action.addEdge i j
  | fact i p o => Action.addFact i p o
  | exclusion i p => do
    let v ← Action.inferVar i
    Action.exclude i p
    return !v.excludes p

def subjects : Change → List InferIndex
  | lower i _ => [i]
  | upper i _ => [i]
  | edge i j => [i, j]
  | fact i _ _ => [i]
  | exclusion i _ => [i]

def deed : Change → Deed
  | lower i b => .lower i b
  | upper i b => .upper i b
  | edge i j => .edge i j
  | fact i p o => .fact i p o
  | exclusion i p => .exclude i p

theorem session_action (c : Change) (s : Session) : (c.action.exec s).2 = c.deed.apply s := by
  cases c with
  | lower i b =>
    simp only [action, Action.exec_bind, deed, Deed.apply]
    split <;> simp_all
  | upper i b | edge i j | fact i p o => rfl
  | exclusion i p =>
    simp only [action, Action.exec_bind, Action.exec_inferVar, deed, Deed.apply]
    cases found : s.inferVars[i]? with
    | none => simp [Action.exclude, Action.exec_bind, Action.exec_inferVar, found]
    | some v =>
      simp only [Option.elim]
      split <;> simp_all

end Change

namespace Session

variable {s s' s'' : Session}

/-- The waiters of some variables, those of the first one first, each in the order in which they came. -/
def summoned (s : Session) : List InferIndex → List Waiter
  | [] => []
  | v :: vs => s.waiters.filter (fun w => w.infer = v) ++ (s.summoned vs).filter fun w => w.infer ≠ v

theorem mem_summoned {vs : List InferIndex} {w : Waiter} : w ∈ s.summoned vs ↔ w ∈ s.waiters ∧ w.infer ∈ vs := by
  induction vs with
  | nil => simp [summoned]
  | cons v vs ih =>
    by_cases same : w.infer = v
    · simp [summoned, ih, same]
    · simp [summoned, ih, same]

theorem filter_summoned {vs : List InferIndex} {v : InferIndex} (member : v ∈ vs) :
    (s.summoned vs).filter (fun w => w.infer = v) = s.waiters.filter fun w => w.infer = v := by
  induction vs with
  | nil => cases member
  | cons u vs ih =>
    by_cases same : v = u
    · subst same
      simp [summoned, List.filter_filter]
    · have later : v ∈ vs := (List.mem_cons.mp member).resolve_left same
      have none : s.waiters.filter (fun w => decide (w.infer = v) && decide (w.infer = u)) = [] := by
        refine List.filter_eq_nil_iff.mpr fun w _ both => same ?_
        simp only [Bool.and_eq_true, decide_eq_true_eq] at both
        exact both.1.symm.trans both.2
      simp only [summoned, List.filter_append, List.filter_filter, none, List.nil_append]
      rw [← ih later]
      refine List.filter_congr fun w _ => ?_
      by_cases here : w.infer = v
      · simp [here, same]
      · simp [here]

theorem summoned_of_filter {vs : List InferIndex} (others : List InferIndex)
    (rest : s'.waiters = s.waiters.filter fun w => !vs.contains w.infer) :
    s'.summoned others = (s.summoned others).filter fun w => !vs.contains w.infer := by
  induction others with
  | nil => rfl
  | cons v others ih =>
    simp only [summoned, ih, rest, List.filter_append, List.filter_filter]
    simp only [Bool.and_comm]

theorem summoned_append (vs others : List InferIndex) :
    s.summoned (vs ++ others) = s.summoned vs ++ (s.summoned others).filter fun w => !vs.contains w.infer := by
  induction vs with
  | nil => simp [summoned]
  | cons v vs ih =>
    simp only [List.cons_append, summoned, ih, List.filter_append, List.append_assoc, List.filter_filter]
    congr 2
    refine List.filter_congr fun w _ => ?_
    by_cases same : w.infer = v <;> simp [same]

theorem summoned_perm (vs : List InferIndex) :
    (s.summoned vs).Perm (s.waiters.filter fun w => vs.contains w.infer) := by
  induction vs with
  | nil => simp [summoned]
  | cons v vs ih =>
    have later := ih.filter fun w => decide (w.infer ≠ v)
    refine (List.Perm.append_left _ later).trans ?_
    have halves := List.filter_append_perm (fun w : Waiter => decide (w.infer = v))
      (s.waiters.filter fun w => (v :: vs).contains w.infer)
    refine List.Perm.trans (.of_eq ?_) halves
    simp only [List.filter_filter]
    congr 1 <;> refine List.filter_congr fun w _ => ?_ <;> by_cases same : w.infer = v <;> simp [same]

theorem nodup_summoned (vs : List InferIndex) (distinct : (s.waiters.map Waiter.ticket).Nodup) :
    ((s.summoned vs).map Waiter.ticket).Nodup := by
  refine ((summoned_perm vs).map Waiter.ticket).nodup_iff.mpr ?_
  exact distinct.sublist (List.filter_sublist.map _)

structure Summons (vs : List InferIndex) (stirs : List Nat) (s s' : Session) : Prop where
  waiters : s'.waiters = s.waiters.filter fun w => !vs.contains w.infer
  signals : s'.signals = s.signals ++ (s.summoned vs).map (fun w => .wake w.ticket .changed) ++ stirs.map .stirred
  abandoned : s.abandoned ⊆ s'.abandoned
  settleRounds : s'.settleRounds = s.settleRounds
  config : s'.config = s.config
  known : s.inferVars.length ≤ s'.inferVars.length

theorem Summons.none (waiters : s'.waiters = s.waiters) (signals : s'.signals = s.signals)
    (abandoned : s.abandoned ⊆ s'.abandoned) (settleRounds : s'.settleRounds = s.settleRounds)
    (config : s'.config = s.config) (known : s.inferVars.length ≤ s'.inferVars.length) :
    Summons [] [] s s' where
  waiters := by simp [waiters]
  signals := by simp [signals, summoned]
  abandoned := abandoned
  settleRounds := settleRounds
  config := config
  known := known

theorem Summons.refl (s : Session) : Summons [] [] s s :=
  .none rfl rfl (List.Subset.refl _) rfl rfl (Nat.le_refl _)

theorem Summons.trans {vs others : List InferIndex} {stirs : List Nat} (first : Summons vs [] s s')
    (second : Summons others stirs s' s'') : Summons (vs ++ others) stirs s s'' where
  waiters := by
    rw [second.waiters, first.waiters, List.filter_filter]
    refine List.filter_congr fun w _ => ?_
    simp [Bool.and_comm]
  signals := by
    rw [second.signals, first.signals, summoned_of_filter others first.waiters, summoned_append]
    simp
  abandoned := List.Subset.trans first.abandoned second.abandoned
  settleRounds := second.settleRounds.trans first.settleRounds
  config := second.config.trans first.config
  known := Nat.le_trans first.known second.known

end Session

namespace Action

variable {s : Session}

theorem summons_notify (i : InferIndex) : Session.Summons [i] [] s ((notify i).exec s).2 where
  waiters := by
    simp [notify]
  signals := by simp [notify, Session.summoned]
  abandoned := List.Subset.refl _
  settleRounds := rfl
  config := rfl
  known := Nat.le_refl _

theorem session_releaseBranch (i node : Nat) (s : Session) : ((releaseBranch i node).exec s).2 =
    ((s.searches[i]?.getD .start).release node).elim s fun released => ((stir i released).exec s).2 := by
  simp only [releaseBranch, search, exec_bind, exec_get, exec_pure]
  cases (s.searches[i]?.getD .start).release node <;> rfl

theorem summons_log (depth : Nat) (message : String) (values : List String) :
    Session.Summons [] [] s ((log depth message values).exec s).2 := by
  simp only [log, exec_modify]
  split
  · exact .none rfl rfl (List.Subset.refl _) rfl rfl (Nat.le_refl _)
  · exact .refl s

theorem summons_modifyInferVar (i : InferIndex) (f : InferVar → InferVar) :
    Session.Summons [] [] s ((modifyInferVar i f).exec s).2 := by
  refine .none rfl rfl (List.Subset.refl _) rfl rfl ?_
  simp [modifyInferVar]

end Action

namespace Change

variable {s : Session} {v : InferVar}

def subject : Change → InferIndex
  | lower i _ => i
  | upper i _ => i
  | edge i _ => i
  | fact i _ _ => i
  | exclusion i _ => i

def isOld (v : InferVar) : Change → Bool
  | lower _ _ => v.lower.isSome
  | upper _ b => v.hasUpper b.term
  | edge _ j => v.successors.contains j
  | fact _ p _ => v.hasFact p
  | exclusion _ p => v.excludes p

def record (v : InferVar) : Change → Action Bool
  | lower i b => do
    Action.modifyInferVar i fun v => { v with lower := some b }
    Action.log 0 "lower bound" [{ v with lower := some b }.render i]
    Action.notify i
    return true
  | upper i b => do
    Action.modifyInferVar i fun v => { v with uppers := v.uppers ++ [b] }
    Action.notify i
    return true
  | edge i j => do
    Action.modifyInferVar i (·.withSuccessor j)
    let _ ← Action.inferVar j
    Action.modifyInferVar j (·.withPredecessor i)
    Action.notify i
    Action.notify j
    return true
  | fact i p o => do
    Action.modifyInferVar i fun v => { v with facts := v.facts ++ [(p, o)] }
    Action.notify i
    return true
  | exclusion i p => do
    Action.modifyInferVar i fun v => { v with excluded := v.excluded ++ [p] }
    Action.notify i
    return true

def stale : Change → Except Failure Bool
  | lower i _ => .error (.violated (.lowerBoundTaken i))
  | _ => .ok false

theorem exec_action (c : Change) (s : Session) : c.action.exec s = match s.inferVars[c.subject]? with
    | none => (.error (.violated (.unknownInferVar c.subject)), s)
    | some v => if c.isOld v then (c.stale, s) else (c.record v).exec s := by
  cases c with
  | lower i b =>
    simp only [action, Action.setLowerBound, Action.exec_bind, Action.exec_inferVar, subject, isOld]
    cases s.inferVars[i]? with
    | none => rfl
    | some v => cases taken : v.lower.isSome <;> simp only [Option.elim, taken] <;> rfl
  | upper i b =>
    simp only [action, Action.addUpperBound, Action.exec_bind, Action.exec_inferVar, subject, isOld]
    cases s.inferVars[i]? with
    | none => rfl
    | some v => cases old : v.hasUpper b.term <;> simp only [Option.elim, old] <;> rfl
  | edge i j =>
    simp only [action, Action.addEdge, Action.exec_bind, Action.exec_inferVar, subject, isOld]
    cases s.inferVars[i]? with
    | none => rfl
    | some v => cases old : v.successors.contains j <;> simp only [Option.elim, old] <;> rfl
  | fact i p o =>
    simp only [action, Action.addFact, Action.exec_bind, Action.exec_inferVar, subject, isOld]
    cases s.inferVars[i]? with
    | none => rfl
    | some v => cases old : v.hasFact p <;> simp only [Option.elim, old] <;> rfl
  | exclusion i p =>
    cases found : s.inferVars[i]? with
    | none =>
      simp only [action, Action.exec_bind, Action.exec_inferVar, subject, found]
      rfl
    | some v =>
      simp only [action, Action.exclude, Action.exec_bind, Action.exec_inferVar, subject, isOld, found, Option.elim]
      rcases Bool.eq_false_or_eq_true (v.excludes p) with old | old <;> simp only [old] <;> rfl

theorem summons_record (i : InferIndex) (f : InferVar → InferVar) :
    s.Summons [i] [] ((Action.modifyInferVar i f >>= fun _ => Action.notify i).exec s).2 :=
  (Action.summons_modifyInferVar i f).trans (Action.summons_notify i)

theorem moved_of_modify {vars : List InferVar} {i k : InferIndex} {f : InferVar → InferVar}
    (moved : (vars.modify i f)[k]? ≠ vars[k]?) : k = i := by
  by_contra apart
  apply moved
  rw [List.getElem?_modify_ne]
  exact fun same => apart same.symm

theorem effect_record (c : Change) (found : s.inferVars[c.subject]? = some v) :
    (((c.record v).exec s).1 = .ok true ∧ s.Summons c.subjects [] ((c.record v).exec s).2 ∧
      ∀ k, ((c.record v).exec s).2.inferVars[k]? ≠ s.inferVars[k]? → k ∈ c.subjects) ∨
    (∃ e, ((c.record v).exec s).1 = .error e) ∧ s.Summons [] [] ((c.record v).exec s).2 := by
  cases c with
  | lower i b =>
    let f (v : InferVar) : InferVar := { v with lower := some b }
    refine .inl ⟨rfl, ?_, fun k moved => ?_⟩
    · exact (Action.summons_modifyInferVar i f).trans ((Action.summons_log _ _ _).trans (Action.summons_notify i))
    · have vars : (((lower i b).record v).exec s).2.inferVars = s.inferVars.modify i f := Action.spares_log _ _ _ _
      rw [vars] at moved
      exact List.mem_singleton.mpr (moved_of_modify moved)
  | upper i b | fact i p o | exclusion i p =>
    exact .inl ⟨rfl, summons_record i _, fun k moved => List.mem_singleton.mpr (moved_of_modify moved)⟩
  | edge i j =>
    let f : InferVar → InferVar := (·.withSuccessor j)
    let g : InferVar → InferVar := (·.withPredecessor i)
    let s' : Session := { s with inferVars := s.inferVars.modify i f }
    have exec : ((edge i j).record v).exec s = (Action.inferVar j >>= fun _ => Action.modifyInferVar j g >>= fun _ =>
      Action.notify i >>= fun _ => Action.notify j >>= fun _ => pure true).exec s' := rfl
    rw [exec, Action.exec_bind, Action.exec_inferVar]
    cases target : s'.inferVars[j]? with
    | none => exact .inr ⟨⟨_, rfl⟩, Action.summons_modifyInferVar i f⟩
    | some u =>
      refine .inl ⟨rfl, ?_, fun k moved => ?_⟩
      · exact (Action.summons_modifyInferVar i f).trans <| (Action.summons_modifyInferVar j g).trans <|
          (Action.summons_notify i).trans (Action.summons_notify j)
      · by_contra outside
        have ⟨first, second⟩ : k ≠ i ∧ k ≠ j := by simpa [subjects] using outside
        apply moved
        change ((s.inferVars.modify i f).modify j g)[k]? = s.inferVars[k]?
        rw [List.getElem?_modify_ne (h := second.symm), List.getElem?_modify_ne (h := first.symm)]

theorem effect (c : Change) (s : Session) :
    ((c.action.exec s).1 = .ok true ∧ s.Summons c.subjects [] (c.action.exec s).2 ∧
      ∀ k, (c.action.exec s).2.inferVars[k]? ≠ s.inferVars[k]? → k ∈ c.subjects) ∨
    c.action.exec s = (.ok false, s) ∨
    (∃ e, (c.action.exec s).1 = .error e) ∧ s.Summons [] [] (c.action.exec s).2 := by
  rw [exec_action]
  split
  · exact .inr (.inr ⟨⟨_, rfl⟩, .refl s⟩)
  · rename_i v found
    split
    · cases c with
      | lower i b => exact .inr (.inr ⟨⟨_, rfl⟩, .refl s⟩)
      | _ => exact .inr (.inl rfl)
    · rcases effect_record c found with new | broken
      · exact .inl new
      · exact .inr (.inr broken)

end Change

theorem Deed.summons (d : Deed) (s : Session) : ∃ vs stirs, s.Summons vs stirs (d.apply s) := by
  have change (c : Change) (same : c.deed = d) : ∃ vs stirs, s.Summons vs stirs (d.apply s) := by
    rw [← same, ← c.session_action]
    rcases c.effect s with ⟨_, summons, _⟩ | old | ⟨_, summons⟩
    · exact ⟨_, _, summons⟩
    · rw [old]
      exact ⟨_, _, .refl s⟩
    · exact ⟨_, _, summons⟩
  have quiet {s' : Session} (same : s'.waiters = s.waiters ∧ s'.signals = s.signals ∧ s'.settleRounds = s.settleRounds ∧
      s'.config = s.config) (abandoned : s.abandoned ⊆ s'.abandoned) (known : s.inferVars.length ≤ s'.inferVars.length) :
      ∃ vs stirs, s.Summons vs stirs s' :=
    ⟨[], [], .none same.1 same.2.1 abandoned same.2.2.1 same.2.2.2 known⟩
  have stirs (i : Nat) (search : Search) : ∃ vs stirs, s.Summons vs stirs ((Action.stir i search).exec s).2 := by
    refine ⟨[], [i], ⟨?_, ?_, List.Subset.refl _, rfl, rfl, Nat.le_refl _⟩⟩
    · simp [Action.stir]
    · simp [Action.stir, Session.summoned]
  cases d with
  | log depth message values => exact ⟨_, _, Action.summons_log depth message values⟩
  | report d | assign v t | name kind text span | speculate | keep e =>
    exact quiet ⟨rfl, rfl, rfl, rfl⟩ (List.Subset.refl _) (Nat.le_refl _)
  | fresh env kind span =>
    let v : InferVar := { kind, span, home := env.home }
    have added : s.Summons [] [] { s with inferVars := s.inferVars ++ [v] } :=
      .none rfl rfl (List.Subset.refl _) rfl rfl (by simp)
    exact ⟨_, _, added.trans (Action.summons_log _ _ _)⟩
  | lower i b => exact change (.lower i b) rfl
  | upper i b => exact change (.upper i b) rfl
  | edge i j => exact change (.edge i j) rfl
  | fact i p o => exact change (.fact i p o) rfl
  | exclude i p => exact change (.exclusion i p) rfl
  | fallback i d =>
    simp only [apply, Action.setFallback, Action.exec_bind, Action.exec_inferVar]
    cases s.inferVars[i]? with
    | none => exact ⟨_, _, .refl s⟩
    | some v =>
      simp only [Option.elim]
      split
      · exact ⟨_, _, Action.summons_modifyInferVar i _⟩
      · exact ⟨_, _, .refl s⟩
  | search branches =>
    cases started : Search.start.spawn 0 branches with
    | error e =>
      simp only [apply, Action.startSearch, started]
      exact ⟨_, _, .refl s⟩
    | ok found =>
      simp only [apply, Action.startSearch, started]
      exact quiet ⟨rfl, rfl, rfl, rfl⟩ (List.Subset.refl _) (Nat.le_refl _)
  | conclude i => exact stirs i _
  | release i node =>
    rw [apply, Action.session_releaseBranch]
    cases (s.searches[i]?.getD .start).release node with
    | none => exact ⟨_, _, .refl s⟩
    | some released => exact stirs i released
  | abandon n => exact quiet ⟨rfl, rfl, rfl, rfl⟩ (List.subset_cons_self _ _) (Nat.le_refl _)

theorem Conduct.Does.known {C : Conduct} {s s' : Session} (does : C.Does s s') :
    s.inferVars.length ≤ s'.inferVars.length := by
  refine does.within (R := fun s s' => s.inferVars.length ≤ s'.inferVars.length) (fun s => Nat.le_refl _)
    Nat.le_trans fun d s _ => ?_
  obtain ⟨vs, stirs, summons⟩ := d.summons s
  exact summons.known

end Ownership
