import Ownership.Proofs.Evaluation
import Ownership.Proofs.Regime

namespace Ownership

namespace Machine

variable {β : Type} {rules : Rules} {s : Session} {n : Nat}

def solo (s : Session) (n : Nat) (p : Prog β) : Machine β where
  session := s
  queue := [.run ⟨.root 0, n, p⟩]

theorem deliverSignals_solo (s : Session) (n : Nat) (p : Prog β) :
    (solo s n p).deliverSignals = solo { s with signals := [] } n p := by
  have unheard (signals : List Signal) (s : Session) :
      signals.foldl deliver (solo s n p) = solo s n p := by
    induction signals with
    | nil => rfl
    | cons signal signals ih => cases signal <;> exact ih
  rw [deliverSignals]
  split
  · rename_i empty
    have none : s.signals = [] := List.isEmpty_iff.1 empty
    obtain ⟨⟩ := s
    dsimp only at none
    rw [none]
  · exact unheard _ _

theorem step_update (f : Session → Session) (k : Session → Prog β) :
    (solo s n (.update f k)).step rules = some (solo { f s with signals := [] } n (k s)) :=
  congrArg some (deliverSignals_solo (f s) n (k s))

end Machine

open Machine (solo)

def Goal.alone {sh : Shape} (g : Goal sh) (start : Session) : Machine sh.Value :=
  ({ session := start } : Machine sh.Value).start 0 (.ask g)

namespace Session

variable {s s' s'' : Session} {ds ds' : List Diagnostic}

/-- The diagnostics are recorded, each with a report of its own, and nothing else happens but that waiters, signals
and traces come and go. -/
def Tells (s : Session) (ds : List Diagnostic) (s' : Session) : Prop :=
  Alike { s with diagnostics := s.diagnostics ++ ds, nextReport := s.nextReport + ds.length } s'

theorem Alike.tells (alike : s.Alike s') : s.Tells [] s' := by
  rw [Tells, List.append_nil]
  exact alike

theorem Tells.refl (s : Session) : s.Tells [] s := (Alike.refl s).tells

theorem Tells.trans (first : s.Tells ds s') (second : s'.Tells ds' s'') : s.Tells (ds ++ ds') s'' := by
  obtain ⟨_, _, _, _, rfl⟩ := first
  obtain ⟨_, _, _, _, rfl⟩ := second
  rw [Tells, ← List.append_assoc, List.length_append, ← Nat.add_assoc]
  exact ⟨_, _, _, _, rfl⟩

theorem Tells.akin (tells : s.Tells ds s') : s.Akin s' := by
  obtain ⟨_, _, _, _, rfl⟩ := tells
  exact ⟨rfl, rfl, rfl, rfl, rfl⟩

theorem Tells.diagnostics (tells : s.Tells ds s') : s'.diagnostics = s.diagnostics ++ ds := by
  obtain ⟨_, _, _, _, rfl⟩ := tells
  rfl

theorem Tells.nextReport (tells : s.Tells ds s') : s'.nextReport = s.nextReport + ds.length := by
  obtain ⟨_, _, _, _, rfl⟩ := tells
  rfl

theorem Tells.quiet (tells : s.Tells ds s') (same : s'.diagnostics = s.diagnostics) : ds = [] := by
  rw [tells.diagnostics] at same
  exact List.append_right_eq_self.mp same

end Session

theorem Action.exec_report_tells (env : Env) (d : Diagnostic) (s : Session) :
    ∃ s', (report env d).exec s = (.ok ⟨s.nextReport, d.span, d.message⟩, s') ∧ s.Tells [d] s' := by
  obtain ⟨done, _, _, _, _, changed⟩ := exec_log env.depth "report" [d.message] s
  have logged : (log env.depth "report" [d.message]).exec s = (.ok (), _) := Prod.ext done changed
  rw [report, exec_bind, logged]
  exact ⟨_, rfl, _, _, _, _, rfl⟩

/-- Holds of a machine that stops, and of one of which it holds after the next step. -/
structure Machine.Reverts {β : Type} (Stops : ⦃β : Type⦄ → Machine β → Prop) (G : Machine β → Prop) : Prop where
  back : ∀ {m m'}, m.step Rules.answer = some m' → G m' → G m
  stops : ∀ {m}, Stops m → G m

namespace Prog

variable {Stops : ⦃β : Type⦄ → Machine β → Prop}
variable {α β : Type} {s : Session} {p : Prog α} {r : Except Failure α} {Q R : Except Failure α → Session → Prop}

/-- Run alone from `s`, the program comes to an end that satisfies `Q`, or stops before: whatever steps lead to is
brought about by it if what follows such an end brings it about. -/
def Completes (Stops : ⦃β : Type⦄ → Machine β → Prop) (p : Prog α) (s : Session) (Q : Except Failure α → Session → Prop) : Prop :=
  ∀ (β : Type) (G : Machine β → Prop), Machine.Reverts Stops G →
    ∀ (k : Except Failure α → Prog β) (n : Nat), (∀ r s' n', Q r s' → G (solo s' n' (k r))) → G (solo s n (p.andThen k))

theorem Completes.mono (h : p.Completes Stops s Q) (imp : ∀ r s', Q r s' → R r s') : p.Completes Stops s R :=
  fun β G reverts k n ends => h β G reverts k n fun r s' n' holds => ends r s' n' (imp r s' holds)

theorem completes_done (h : Q r s) : (done r).Completes Stops s Q := fun _ _ _ _ n ends => ends r s n h

theorem Completes.andThen {f : Except Failure α → Prog β} {R : Except Failure β → Session → Prop}
    (h : p.Completes Stops s fun r s' => (f r).Completes Stops s' R) : (p.andThen f).Completes Stops s R := by
  intro γ G reverts k n ends
  rw [andThen_assoc]
  exact h γ G reverts _ n fun r s' n' next => next γ G reverts k n' ends

theorem Completes.bind {f : α → Prog β} {R : Except Failure β → Session → Prop}
    (h : p.Completes Stops s fun r s' => (resume f r).Completes Stops s' R) : (p >>= f).Completes Stops s R := h.andThen

theorem completes_perform {a : Action α} (h : ∀ s', (a.exec s).2.Alike s' → Q (a.exec s).1 s') :
    (perform a).Completes Stops s Q := fun _ _ reverts _ n ends =>
  reverts.back (Machine.step_update _ _) (ends _ { (a.exec s).2 with signals := [] } n (h _ ⟨_, _, _, _, rfl⟩))

theorem completes_rest (turns : Nat) (h : p.Completes Stops s Q) : (rest turns p).Completes Stops s Q := by
  intro β G reverts k n ends
  induction turns generalizing n with
  | zero => exact reverts.back rfl (h β G reverts k n ends)
  | succ turns ih => exact reverts.back rfl (ih (n + 1))

theorem completes_mark {k : Nat → Prog α} (h : ∀ n, (k n).Completes Stops s Q) : (mark k).Completes Stops s Q :=
  fun β G reverts k' n ends => reverts.back rfl (h n β G reverts k' n ends)

theorem Completes.awaited (h : p.Completes Stops s Q) : p.awaited.Completes Stops s Q :=
  (h.mono fun _ _ holds => completes_rest 1 (completes_done holds)).andThen

theorem Completes.relayed (h : p.Completes Stops s Q) : p.relayed.Completes Stops s Q :=
  completes_mark fun _ => (h.mono fun _ _ holds =>
    completes_mark fun _ => completes_rest _ (completes_done holds)).andThen

theorem Completes.call {sh : Shape} {g : Goal sh} {Q : Except Failure sh.Value → Session → Prop}
    (rule : (Rules.rule sh g).Completes Stops s Q) : (Prog.call g done).Completes Stops s Q := by
  have answer : (Rules.answer sh g).Completes Stops s Q :=
    (rule.mono fun r s' holds _ _ reverts _ n ends => reverts.back rfl (ends r s' n holds)).andThen
  exact fun β G reverts k n ends => reverts.back rfl (answer β G reverts k n ends)

theorem Completes.run (h : p.Completes Stops s Q) : ∃ fuel, Stops ((solo s 0 p).run Rules.answer fuel) ∨
    ∃ r last n, Q r last ∧ (solo s 0 p).run Rules.answer fuel = solo last n (done r) := by
  let Ends (m : Machine α) : Prop := ∃ fuel, Stops (m.run Rules.answer fuel) ∨
    ∃ r last n, Q r last ∧ m.run Rules.answer fuel = solo last n (done r)
  have reverts : Machine.Reverts Stops Ends := by
    refine ⟨fun {m m'} next ⟨fuel, ends⟩ => ⟨fuel + 1, ?_⟩, fun stops => ⟨0, .inl stops⟩⟩
    rwa [Machine.run, next]
  have ends := h α Ends reverts done 0 fun r last n holds => ⟨0, .inr ⟨r, last, n, holds, rfl⟩⟩
  rwa [andThen_done] at ends

theorem Completes.yields (h : p.Completes (fun _ _ => False) s Q) : ∃ r last, p.Yields s r last ∧ Q r last := by
  obtain ⟨fuel, stops | ⟨r, last, n, holds, run⟩⟩ := h.run
  · exact stops.elim
  have ended : (solo s 0 p).run Rules.answer (fuel + 1) = (solo last n (done r)).run Rules.answer 1 := by
    rw [Machine.run_add, run]
  exact ⟨r, last, ⟨fuel + 1, _, ended, rfl, rfl, rfl⟩, holds⟩

/-- Run alone from `s`, the program comes to an end, and all it does to the session is to report. -/
def Reports (p : Prog α) (s : Session) (P : Except Failure α → List Diagnostic → Prop) : Prop :=
  p.Completes (fun _ _ => False) s fun r s' => ∃ ds, s.Tells ds s' ∧ P r ds

variable {P P' : Except Failure α → List Diagnostic → Prop} {ds : List Diagnostic}

theorem Reports.mono (h : p.Reports s P) (imp : ∀ r ds, P r ds → P' r ds) : p.Reports s P' :=
  Completes.mono h fun r _ ⟨ds, tells, holds⟩ => ⟨ds, tells, imp r ds holds⟩

theorem reports_done (h : P r []) : (done r).Reports s P := completes_done ⟨[], .refl s, h⟩

theorem Reports.andThen {f : Except Failure α → Prog β} {R : Except Failure β → List Diagnostic → Prop}
    (h : p.Reports s fun r ds => ∀ s', s.Tells ds s' → (f r).Reports s' fun r' more => R r' (ds ++ more)) :
    (p.andThen f).Reports s R := by
  refine (Completes.mono h fun r s' ⟨ds, tells, next⟩ => ?_).andThen
  exact Completes.mono (next s' tells) fun r' s'' ⟨more, tells', holds⟩ => ⟨ds ++ more, tells.trans tells', holds⟩

theorem Reports.bind {f : α → Prog β} {R : Except Failure β → List Diagnostic → Prop}
    (h : p.Reports s fun r ds => ∀ s', s.Tells ds s' → (resume f r).Reports s' fun r' more => R r' (ds ++ more)) :
    (p >>= f).Reports s R := h.andThen

theorem reports_perform {a : Action α} {s' : Session} (exec : a.exec s = (r, s')) (tells : s.Tells ds s') (h : P r ds) :
    (perform a).Reports s P := by
  refine completes_perform fun s'' alike => ⟨ds, ?_, ?_⟩
  · rw [exec] at alike
    simpa using tells.trans alike.tells
  · rwa [exec]

theorem reports_get_bind {f : Session → Prog α} (h : ∀ s', s.Alike s' → (f s).Reports s' P) :
    (perform get >>= f).Reports s P := by
  refine Completes.bind <| completes_perform fun s' alike => ?_
  exact Completes.mono (h s' alike) fun r s'' ⟨ds, tells, holds⟩ => ⟨ds, by simpa using alike.tells.trans tells, holds⟩

theorem reports_report {P : Except Failure Report → List Diagnostic → Prop} (env : Env) (d : Diagnostic)
    (h : P (.ok ⟨s.nextReport, d.span, d.message⟩) [d]) : (perform (Action.report env d)).Reports s P := by
  obtain ⟨s', exec, tells⟩ := Action.exec_report_tells env d s
  exact reports_perform exec tells h

theorem Reports.awaited (h : p.Reports s P) : p.awaited.Reports s P := Completes.awaited h

theorem Reports.relayed (h : p.Reports s P) : p.relayed.Reports s P := Completes.relayed h

theorem Reports.ask {sh : Shape} {g : Goal sh} {P : Except Failure sh.Value → List Diagnostic → Prop}
    (rule : (Rules.rule sh g).Reports s P) : (ask g).Reports s P := (Completes.call rule).awaited

theorem Reports.relay {sh : Shape} {g : Goal sh} {P : Except Failure sh.Value → List Diagnostic → Prop}
    (rule : (Rules.rule sh g).Reports s P) : (relay g).Reports s P := (Completes.call rule).relayed

theorem reports_log {P : Except Failure Unit → List Diagnostic → Prop} (depth : Nat) (message : String)
    (values : List String) (h : P (.ok ()) []) : (perform (Action.log depth message values)).Reports s P := by
  obtain ⟨done, alike⟩ := Action.exec_log depth message values s
  exact reports_perform (Prod.ext done rfl) alike.tells h

theorem Reports.traced {env : Env} {task result : String} {values : List String} {body : Env → Prog α}
    (h : ∀ s', s.Alike s' → (body env.fork).Reports s' P) : (traced env task values result body).Reports s P := by
  refine (reports_log _ _ _ fun s' tells => ?_).bind
  refine ((h s' ?_).awaited.mono fun r ds holds s'' _ => ?_).bind
  · simpa [Session.Tells] using tells
  · cases r with
    | error e => exact reports_done (by simpa using holds)
    | ok a => exact (reports_log _ _ _ fun _ _ => reports_done (by simpa using holds)).bind

theorem Reports.yields (h : p.Reports s P) : ∃ r last ds, p.Yields s r last ∧ s.Tells ds last ∧ P r ds := by
  obtain ⟨r, last, yields, ds, tells, holds⟩ := Completes.yields h
  exact ⟨r, last, ds, yields, tells, holds⟩

end Prog

end Ownership
