import Ownership.Proofs.Contract

namespace Ownership

namespace Action

variable {α β : Type}

def exec (a : Action α) (s : Session) : Except Failure α × Session := a.run.run s

@[simp] theorem exec_pure (a : α) (s : Session) : (pure a : Action α).exec s = (.ok a, s) := rfl

@[simp] theorem exec_throw (e : Failure) (s : Session) : (throw e : Action α).exec s = (.error e, s) := rfl

@[simp] theorem exec_get (s : Session) : (get : Action Session).exec s = (.ok s, s) := rfl

@[simp] theorem exec_set (s s' : Session) : (set s' : Action Unit).exec s = (.ok (), s') := rfl

@[simp] theorem exec_modify (f : Session → Session) (s : Session) :
    (modify f : Action Unit).exec s = (.ok (), f s) := rfl

theorem exec_bind (a : Action α) (f : α → Action β) (s : Session) :
    (a >>= f).exec s = match a.exec s with
      | (.ok x, s') => (f x).exec s'
      | (.error e, s') => (.error e, s') := by
  unfold exec
  rw [ExceptT.run_bind, StateT.run_bind]
  rcases (a.run).run s with ⟨r, s'⟩
  cases r <;> rfl

theorem exec_log_trace (depth : Nat) (message : String) (values : List String) (s : Session) :
    ∃ trace, (log depth message values).exec s = (.ok (), { s with trace := trace }) := by
  simp only [log, exec_modify]
  split
  · exact ⟨_, rfl⟩
  · exact ⟨s.trace, rfl⟩

theorem exec_log (depth : Nat) (message : String) (values : List String) (s : Session) :
    ((log depth message values).exec s).1 = .ok () ∧ s.Alike ((log depth message values).exec s).2 := by
  refine ⟨rfl, ?_⟩
  simp only [log, exec_modify]
  split
  · exact ⟨_, _, _, _, rfl⟩
  · exact .refl s

theorem exec_inferVar (i : InferIndex) (s : Session) :
    (inferVar i).exec s = (s.inferVars[i]?.elim (.error (.violated (.unknownInferVar i))) .ok, s) := by
  simp only [inferVar, exec_bind, exec_get]
  cases s.inferVars[i]? <;> rfl

theorem exec_variableTy (v : Variable) (s : Session) :
    (variableTy v).exec s = ((s.variableTys.lookup v).elim (.error (.violated (.untypedVariable v))) .ok, s) := by
  simp only [variableTy, exec_bind, exec_get]
  cases s.variableTys.lookup v <;> rfl

def Within (R : Session → Session → Prop) (a : Action α) : Prop := ∀ s : Session, R s (a.exec s).2

section Within

variable {R : Session → Session → Prop} (trans : ∀ {s s' s''}, R s s' → R s' s'' → R s s'')
include trans

theorem Within.bind {a : Action α} {f : α → Action β} (first : a.Within R)
    (next : ∀ x, (f x).Within R) : (a >>= f).Within R := by
  intro s
  have changed := first s
  rw [exec_bind]
  split
  · rename_i x s' done
    rw [done] at changed
    exact trans changed (next x s')
  · rename_i e s' failed
    rw [failed] at changed
    exact changed

theorem Within.forM (refl : ∀ s, R s s) {f : α → Action Unit} (each : ∀ a, (f a).Within R)
    (as : List α) : (as.forM f).Within R := by
  induction as with
  | nil => exact refl
  | cons a as ih => exact Within.bind @trans (each a) fun _ => ih

theorem within_settleOldest (refl : ∀ s, R s s) (waiters : ∀ s ws, R s { s with waiters := ws })
    (rounds : ∀ s n, R s { s with settleRounds := n }) (traces : ∀ s lines, R s { s with trace := lines })
    (running : Nat) : (settleOldest running).Within R := by
  have drops (message : String) (w : Waiter) : (dropWaiter message w).Within R := by
    refine Within.bind @trans (fun s => waiters s _) fun _ => Within.bind @trans (fun s => ?_) fun v s => ?_
    · rw [exec_inferVar]
      exact refl s
    · simp only [log, exec_modify]
      split
      · exact traces s _
      · exact refl s
  refine Within.bind @trans refl fun _ => .bind @trans (.forM @trans refl (drops _) _) fun _ => .bind @trans refl fun _ => ?_
  split
  · exact refl
  · refine .bind @trans (fun s => rounds s _) fun _ => .bind @trans refl fun _ => ?_
    split
    · exact refl
    · exact .bind @trans (drops _ _) fun _ => refl

end Within

theorem exec_refuse (env : Env) (o : Obligation) (because : Because) (s : Session) :
    ∃ report trace, (refuse env o because : Action α).exec s = (.error (.reported report),
      { s with
        trace := trace
        diagnostics := s.diagnostics ++ [o.failure because]
        nextReport := s.nextReport + 1 }) := by
  obtain ⟨trace, logged⟩ := exec_log_trace env.depth "report" [(o.failure because).message] s
  refine ⟨⟨s.nextReport, (o.failure because).span, (o.failure because).message⟩, trace, ?_⟩
  simp only [refuse, reportFailure, report, exec_bind, logged]
  rfl

end Action

namespace Prog

variable {C : Contract} {A : Asks} {owing : Prop} {α β : Type}
variable {Q : Except Failure α → Moment → Prop} {w : Moment}

theorem Meets.perform_bind {a : Action β} {f : β → Prog α}
    (h : ∀ w', C.Leads w w' → C.Leads w' (w'.after fun s => (a.exec s).2) ∧
      (resume f (a.exec w'.session).1).Meets C A owing Q (w'.after fun s => (a.exec s).2) ∧
      ∀ d, C.Owed (a.exec w'.session).2 d → C.Owed w'.session d ∨ owing ∧
        (resume f (a.exec w'.session).1).Meets C A owing (fun _ => C.Paid d)
          (w'.after fun s => (a.exec s).2)) : (perform a >>= f).Meets C A owing Q w := h

theorem Meets.perform {a : Action α}
    (h : ∀ w', C.Leads w w' → C.Leads w' (w'.after fun s => (a.exec s).2) ∧
      (∀ d, C.Owed (a.exec w'.session).2 d → C.Owed w'.session d) ∧
      ∀ w'', C.Leads (w'.after fun s => (a.exec s).2) w'' → Q (a.exec w'.session).1 w'') :
    (perform a).Meets C A owing Q w := by
  intro w' leads
  obtain ⟨next, debts, ends⟩ := h w' leads
  exact ⟨next, ends, fun d owed => .inl (debts d owed)⟩

theorem Meets.read {a : Action α} (same : ∀ s, (a.exec s).2 = s)
    (h : ∀ w', C.Leads w w' → ∀ w'', C.Leads w' w'' → Q (a.exec w'.session).1 w'') :
    (Prog.perform a).Meets C A owing Q w := by
  have unchanged (w : Moment) : w.after (fun s => (a.exec s).2) = w := by
    simp only [Moment.after, same]
  refine .perform fun w' leads => ?_
  rw [unchanged, same]
  exact ⟨.refl leads.sound, fun _ => id, h w' leads⟩

theorem Meets.get_bind {f : Session → Prog α} (h : ∀ w', C.Leads w w' → (f w'.session).Meets C A owing Q w') :
    (Prog.perform get >>= f).Meets C A owing Q w :=
  fun w' leads => ⟨.refl leads.sound, h w' leads, fun _ => .inl⟩

theorem Meets.inferVar_bind {i : InferIndex} {f : InferVar → Prog α}
    (h : ∀ w' v, C.Leads w w' → w'.session.inferVars[i]? = some v → (f v).Meets C A owing Q w')
    (unknown : ∀ w', C.Leads w w' → Q (.error (.violated (.unknownInferVar i))) w') :
    (Prog.perform (Action.inferVar i) >>= f).Meets C A owing Q w := by
  refine .perform_bind fun w' leads => ?_
  have same : w'.after (fun s => ((Action.inferVar i).exec s).2) = w' := by
    simp only [Moment.after, Action.exec_inferVar]
  rw [same, Action.exec_inferVar]
  refine ⟨.refl leads.sound, ?_, fun _ => .inl⟩
  cases found : w'.session.inferVars[i]? with
  | some v => exact h w' v leads found
  | none => exact fun v later => unknown v (leads.trans later)

theorem Meets.log_bind {depth : Nat} {message : String} {values : List String} {f : Unit → Prog α}
    (h : (f ()).Meets C A owing Q w) : (Prog.perform (Action.log depth message values) >>= f).Meets C A owing Q w := by
  refine .perform_bind fun w' leads => ?_
  obtain ⟨answer, alike⟩ := Action.exec_log depth message values w'.session
  have next : C.Leads w' (w'.after fun s => ((Action.log depth message values).exec s).2) :=
    (Contract.Leads.refl leads.sound).alike alike
  rw [answer]
  exact ⟨next, h.later (leads.trans next).1, fun d owed => .inl (C.owed_alike alike owed)⟩

theorem Meets.traced {env : Env} {task result : String} {values : List String} {body : Env → Prog α}
    (h : (body env.fork).Meets C A owing Q w) : (Prog.traced env task values result body).Meets C A owing Q w := by
  refine .log_bind (.bind h.awaited.lasting (fun a v later ends => ?_) fun e v later ends => ?_)
  · exact .log_bind (.ok ends)
  · exact ends v (.refl later.sound)

section Races

variable {decisive : Bool} {tests : List (Goal .truth)} {Q : Except Failure Bool → Moment → Prop}
  (h : ∀ w', C.Leads w w' → (∀ g ∈ tests, A g w') ∧
    ∀ r w'', C.Leads w' w'' → C.RaceEnds decisive (tests.map (·, w')) r w'' → Q r w'')
include h

theorem Meets.race {passed : Bool} : (Prog.race decisive passed tests done).Meets C A owing Q w := by
  intro w' leads
  obtain ⟨allowed, ends⟩ := h w' leads
  exact ⟨allowed, fun r v later ended u last => ends r u (later.trans last)
    (ended.later last.1)⟩

theorem Meets.raced : (Prog.raced decisive tests).Meets C A owing Q w := by
  unfold Prog.raced
  split
  · rename_i empty
    have none : tests = [] := List.isEmpty_iff.mp empty
    subst none
    intro w' leads
    refine (h w' leads).2 _ w' (.refl leads.sound) ?_
    exact .inr ⟨rfl, fun _ member => absurd member List.not_mem_nil⟩
  · exact .race h

end Races

section Gatherings

variable {s : Shape} {asked : List (Goal s × Moment)}

theorem gather_answered {vs : List s.Value} (ended : C.GatherEnds asked (.ok vs) w) :
    ∀ a ∈ asked, ∃ v, C.Post a.1 a.2 (.ok v) w := by
  change List.Forall₂ _ asked vs at ended
  induction ended with
  | nil => exact fun _ member => absurd member List.not_mem_nil
  | cons post _ ih =>
    intro a member
    rcases List.mem_cons.mp member with rfl | member
    · exact ⟨_, post⟩
    · exact ih a member

theorem gathers_lasting {groups : List (Session → List (Goal s))} {Q : Except Failure (List s.Value) → Moment → Prop}
    (h : C.Gathers A Q groups asked w) : C.Gathers A (fun r w => ∀ w', C.Leads w w' → Q r w') groups asked w := by
  induction groups generalizing asked w with
  | nil =>
    intro r v later ended u last
    exact h r u (later.trans last) (ended.later last.1)
  | cons group groups ih => exact fun w' leads => ⟨(h w' leads).1, ih (h w' leads).2⟩

theorem Meets.gather {groups : List (Session → List (Goal s))} {Q : Except Failure (List s.Value) → Moment → Prop}
    (h : C.Gathers A Q groups [] w) : (Prog.gather groups done).Meets C A owing Q w := gathers_lasting h

theorem Meets.eachGroup {groups : List (Session → List (Goal .unit))} {Q : Except Failure Unit → Moment → Prop}
    (h : C.Gathers A (fun r w => Q (r.map fun _ => ()) w) groups [] w) :
    (Prog.eachGroup groups).Meets C A owing Q w := by
  refine .bind (Meets.gather h).lasting (fun a v later ends => .ok ends) fun e v later ends => ?_
  exact ends v (.refl later.sound)

variable {goals : List (Goal .unit)} {Q : Except Failure Unit → Moment → Prop}
  (h : ∀ w', C.Leads w w' → (∀ g ∈ goals, A g w') ∧ ∀ w'', C.Leads w' w'' →
    ((∀ g ∈ goals, C.Post g w' (.ok ()) w'') → Q (.ok ()) w'') ∧
    ∀ e, ∀ g ∈ goals, C.Post g w' (.error e) w'' → Q (.error e) w'')
include h

theorem Meets.each : (Prog.each goals).Meets C A owing Q w := by
  refine .eachGroup fun w' leads => ⟨(h w' leads).1, fun r v later ended => ?_⟩
  obtain ⟨succeed, fail⟩ := (h w' leads).2 v later
  rw [List.nil_append] at ended
  cases r with
  | ok vs =>
    refine succeed fun g member => ?_
    obtain ⟨_, post⟩ := gather_answered ended (g, w') (List.mem_map_of_mem member)
    exact post
  | error e =>
    obtain ⟨a, member, post⟩ := ended
    obtain ⟨g, asked, rfl⟩ := List.mem_map.mp member
    exact fail e g asked post

theorem Meets.eachBesides : (Prog.eachBesides goals).Meets C A owing Q w := by
  unfold Prog.eachBesides
  split
  · rename_i empty
    have none : goals = [] := List.isEmpty_iff.mp empty
    subst none
    intro w' leads
    exact ((h w' leads).2 w' (.refl leads.sound)).1 fun _ member => absurd member List.not_mem_nil
  · exact .each h

end Gatherings

end Prog

end Ownership
