import Mathlib.Algebra.Order.Group.Multiset
import Mathlib.Tactic.Abel
import Ownership.Proofs.Waiters

namespace Ownership

def Shared {α : Type} (P : α → Multiset Nat → Prop) : List α → Multiset Nat → Prop
  | [], _ => True
  | a :: as, O => ∃ I F, I + F ≤ O ∧ P a I ∧ Shared P as F

namespace Shared

variable {α β : Type} {P Q : α → Multiset Nat → Prop} {as bs : List α} {I F O O' : Multiset Nat}

theorem mono (shared : Shared P as O) (le : O ≤ O') : Shared P as O' := by
  cases as with
  | nil => trivial
  | cons a as =>
    obtain ⟨I, F, parts, first, rest⟩ := shared
    exact ⟨I, F, parts.trans le, first, rest⟩

theorem imp (shared : Shared P as O) (h : ∀ a ∈ as, ∀ I, P a I → Q a I) : Shared Q as O := by
  induction as generalizing O with
  | nil => trivial
  | cons a as ih =>
    obtain ⟨I, F, parts, first, rest⟩ := shared
    exact ⟨I, F, parts, h a List.mem_cons_self I first,
      ih rest fun b member => h b (List.mem_cons_of_mem _ member)⟩

theorem of_forall (h : ∀ a ∈ as, P a 0) : Shared P as O := by
  induction as generalizing O with
  | nil => trivial
  | cons a as ih =>
    exact ⟨0, O, (zero_add O).le, h a List.mem_cons_self,
      ih fun b member => h b (List.mem_cons_of_mem _ member)⟩

theorem single {a : α} : Shared P [a] O ↔ ∃ I ≤ O, P a I := by
  refine ⟨fun ⟨I, F, parts, own, _⟩ => ⟨I, (Multiset.le_add_right I F).trans parts, own⟩, ?_⟩
  exact fun ⟨I, le, own⟩ => ⟨I, 0, (add_zero I).le.trans le, own, trivial⟩

theorem map {f : β → α} {bs : List β} : Shared P (bs.map f) O ↔ Shared (fun b => P (f b)) bs O := by
  induction bs generalizing O with
  | nil => exact Iff.rfl
  | cons b bs ih => simp only [List.map_cons, Shared, ih]

theorem append : Shared P (as ++ bs) O ↔ ∃ I F, I + F ≤ O ∧ Shared P as I ∧ Shared P bs F := by
  induction as generalizing O with
  | nil =>
    refine ⟨fun shared => ⟨0, O, (zero_add O).le, trivial, shared⟩, fun ⟨I, F, parts, _, rest⟩ => ?_⟩
    exact rest.mono ((Multiset.le_add_left F I).trans parts)
  | cons a as ih =>
    constructor
    · rintro ⟨I, F, parts, first, rest⟩
      obtain ⟨J, G, parts', middle, last⟩ := ih.mp rest
      refine ⟨I + J, G, ?_, ⟨I, J, le_rfl, first, middle⟩, last⟩
      rw [add_assoc]
      exact (add_le_add_right parts' I).trans parts
    · rintro ⟨I, F, parts, ⟨J, G, parts', first, middle⟩, last⟩
      refine ⟨J, G + F, ?_, first, ih.mpr ⟨G, F, le_rfl, middle, last⟩⟩
      rw [← add_assoc]
      exact (add_le_add_left parts' F).trans parts

theorem perm (shared : Shared P as O) (same : as.Perm bs) : Shared P bs O := by
  induction same generalizing O with
  | nil => trivial
  | cons a _ ih =>
    obtain ⟨I, F, parts, first, rest⟩ := shared
    exact ⟨I, F, parts, first, ih rest⟩
  | swap a b as =>
    obtain ⟨I, F, parts, first, J, G, parts', second, rest⟩ := shared
    refine ⟨J, I + G, ?_, second, I, G, le_rfl, first, rest⟩
    rw [add_left_comm]
    exact (add_le_add_right parts' I).trans parts
  | trans _ _ first second => exact second (first shared)

theorem sublist (shared : Shared P as O) (fewer : bs.Sublist as) : Shared P bs O := by
  induction fewer generalizing O with
  | slnil => trivial
  | cons a _ ih =>
    obtain ⟨I, F, parts, _, rest⟩ := shared
    exact (ih rest).mono ((Multiset.le_add_left F I).trans parts)
  | cons_cons a _ ih =>
    obtain ⟨I, F, parts, first, rest⟩ := shared
    exact ⟨I, F, parts, first, ih rest⟩

end Shared

def Session.numbers (s s' : Session) : Multiset Nat :=
  (List.range' s.nextSymbol (s'.nextSymbol - s.nextSymbol) : List Nat)

theorem Session.numbers_succ {s s' : Session} (next : s'.nextSymbol = s.nextSymbol + 1) :
    s.numbers s' = {s.nextSymbol} := by
  rw [numbers, next, Nat.add_sub_cancel_left]
  rfl

theorem Session.numbers_add {s s' s'' : Session} (first : s.nextSymbol ≤ s'.nextSymbol)
    (second : s'.nextSymbol ≤ s''.nextSymbol) : s.numbers s' + s'.numbers s'' = s.numbers s'' := by
  have start : s'.nextSymbol = s.nextSymbol + 1 * (s'.nextSymbol - s.nextSymbol) := by omega
  have length : s''.nextSymbol - s.nextSymbol =
      (s'.nextSymbol - s.nextSymbol) + (s''.nextSymbol - s'.nextSymbol) := by omega
  rw [numbers, numbers, numbers, Multiset.coe_add, length, ← List.range'_append, ← start]

theorem Session.mem_numbers {s s' : Session} {n : Nat} : n ∈ s.numbers s' ↔ s.nextSymbol ≤ n ∧ n < s'.nextSymbol := by
  rw [numbers, Multiset.mem_coe, List.mem_range'_1]
  omega

theorem Session.nodup_numbers (s s' : Session) : (s.numbers s').Nodup :=
  Multiset.coe_nodup.mpr List.nodup_range'

structure Custody where
  first : Nat
  Keeps : Core.Expr → Prop
  Takes : ⦃s : Shape⦄ → Goal s → Multiset Nat → Prop
  Gives : ⦃s : Shape⦄ → Goal s → s.Value → Multiset Nat → Prop

namespace Custody

variable (K : Custody)

def Safe (s : Session) : Prop := ∀ e, s.outcome = some e → K.Keeps e

def GivesAll {s : Shape} (asked : List (Goal s)) (vs : List s.Value) (G : Multiset Nat) : Prop :=
  asked.length = vs.length ∧ Shared (fun a => K.Gives a.1 a.2) (asked.zip vs) G

def Gathers {s : Shape} (L : Except Failure (List s.Value) → Multiset Nat → Prop) :
    List (Session → List (Goal s)) → List (Goal s) → Multiset Nat → Prop
  | [], asked, O => (∀ vs G, K.GivesAll asked vs G → L (.ok vs) (G + O)) ∧
    ∀ e G, L (.error e) (G + O)
  | group :: groups, asked, O => ∀ s, ∃ I F, I + F ≤ O ∧ Shared (fun g => K.Takes g) (group s) I ∧
    Gathers L groups (asked ++ group s) F

end Custody

/-- The program holds the given numbers. It hands over only numbers that it holds, keeps only what may
be kept, and if it ends well it ends in the postcondition with some of what it then holds. -/
def Prog.Tracks (K : Custody) {α : Type} :
    Prog α → (α → Multiset Nat → Prop) → Multiset Nat → Prop
  | .done (.ok a), Q, O => ∃ G ≤ O, Q a G
  | .done (.error _), _, _ => True
  | .update f k, Q, O => ∀ s, K.Safe s → O.Nodup → (∀ n ∈ O, K.first ≤ n) →
    s.nextSymbol ≤ (f s).nextSymbol ∧ K.Safe (f s) ∧ (k s).Tracks K Q (O + s.numbers (f s))
  | .call g k, Q, O => ∃ I F, I + F ≤ O ∧ K.Takes g I ∧
    (∀ v G, K.Gives g v G → (k (.ok v)).Tracks K Q (G + F)) ∧
    ∀ e G, (k (.error e)).Tracks K Q (G + F)
  | .rest _ k, Q, O => k.Tracks K Q O
  | .mark k, Q, O => ∀ n, (k n).Tracks K Q O
  | .note _ _ k, Q, O => k.Tracks K Q O
  | .park _ _ _ k, Q, O => ∀ wake, (k wake).Tracks K Q O
  | .race _ _ tests k, Q, O => (∀ g ∈ tests, K.Takes g 0) ∧ ∀ r, (k r).Tracks K Q O
  | .gather groups k, Q, O => K.Gathers (fun r => (k r).Tracks K Q) groups [] O
  | .contest _ tests k, Q, O => (∀ g ∈ tests, K.Takes g 0) ∧ ∀ r, (k r).Tracks K Q O
  | .spawn _ g k, Q, O => K.Takes g 0 ∧ k.Tracks K Q O

def Rules.Tracked (rules : Rules) (K : Custody) : Prop :=
  ∀ s (g : Goal s) I, K.Takes g I → (rules s g).Tracks K (K.Gives g) I

namespace Custody

variable {K : Custody} {s : Shape} {groups : List (Session → List (Goal s))} {asked : List (Goal s)}
variable {L M : Except Failure (List s.Value) → Multiset Nat → Prop} {F O O' : Multiset Nat}

theorem Gathers.frame (h : K.Gathers L groups asked O) (le : O + F ≤ O')
    (ends : ∀ r G G', L r G → G + F ≤ G' → M r G') : K.Gathers M groups asked O' := by
  induction groups generalizing asked O O' with
  | nil =>
    have more {G : Multiset Nat} : G + O + F ≤ G + O' := by
      rw [add_assoc]
      exact add_le_add_right le G
    exact ⟨fun vs G given => ends _ _ _ (h.1 vs G given) more, fun e G => ends _ _ _ (h.2 e G) more⟩
  | cons group groups ih =>
    intro s
    obtain ⟨I, J, parts, taken, rest⟩ := h s
    refine ⟨I, J + F, ?_, taken, ih rest le_rfl⟩
    rw [← add_assoc]
    exact (add_le_add_left parts F).trans le

end Custody

namespace Prog

variable {K : Custody} {α β : Type} {p : Prog α} {Q : α → Multiset Nat → Prop}
variable {R : β → Multiset Nat → Prop} {F O O' : Multiset Nat}

theorem Tracks.mono (h : p.Tracks K Q O) (le : O ≤ O') : p.Tracks K Q O' := by
  induction p generalizing O O' with
  | done r =>
    cases r with
    | ok a =>
      obtain ⟨G, fits, ends⟩ := h
      exact ⟨G, fits.trans le, ends⟩
    | error e => trivial
  | update f k ih =>
    intro s safe nodup first
    obtain ⟨later, safe', rest⟩ :=
      h s safe (Multiset.nodup_of_le le nodup) fun n member => first n (Multiset.mem_of_le le member)
    exact ⟨later, safe', ih s rest (add_le_add_left le _)⟩
  | call g k ih =>
    obtain ⟨I, F, parts, rest⟩ := h
    exact ⟨I, F, parts.trans le, rest⟩
  | rest turns k ih | note g r k ih => exact ih h le
  | mark k ih => exact fun n => ih n (h n) le
  | park i speculation enough k ih => exact fun wake => ih wake (h wake) le
  | race decisive passed tests k ih | contest search tests k ih => exact ⟨h.1, fun r => ih r (h.2 r) le⟩
  | gather groups k ih =>
    have le' : O + 0 ≤ O' := (add_zero O).le.trans le
    exact Custody.Gathers.frame h le' fun r G G' rest more =>
      ih r rest ((add_zero G).ge.trans more)
  | spawn description g k ih => exact ⟨h.1, ih h.2 le⟩

theorem Tracks.andThen {f : Except Failure α → Prog β} (h : p.Tracks K Q O)
    (ok : ∀ a G, Q a G → (f (.ok a)).Tracks K R (G + F))
    (error : ∀ e G, (f (.error e)).Tracks K R (G + F)) : (p.andThen f).Tracks K R (O + F) := by
  induction p generalizing O with
  | done r =>
    cases r with
    | ok a =>
      obtain ⟨G, fits, ends⟩ := h
      exact (ok a G ends).mono (add_le_add_left fits F)
    | error e => exact error e O
  | update g k ih =>
    intro s safe nodup first
    have fits : O ≤ O + F := Multiset.le_add_right O F
    obtain ⟨later, safe', rest⟩ :=
      h s safe (Multiset.nodup_of_le fits nodup) fun n member => first n (Multiset.mem_of_le fits member)
    refine ⟨later, safe', ?_⟩
    rw [add_right_comm]
    exact ih s rest
  | call g k ih =>
    obtain ⟨I, J, parts, taken, answered, failed⟩ := h
    refine ⟨I, J + F, ?_, taken, fun v G given => ?_, fun e G => ?_⟩
    · rw [← add_assoc]
      exact add_le_add_left parts F
    · rw [← add_assoc]
      exact ih _ (answered v G given)
    · rw [← add_assoc]
      exact ih _ (failed e G)
  | rest turns k ih | note g r k ih => exact ih h
  | mark k ih => exact fun n => ih n (h n)
  | park i speculation enough k ih => exact fun wake => ih wake (h wake)
  | race decisive passed tests k ih | contest search tests k ih => exact ⟨h.1, fun r => ih r (h.2 r)⟩
  | gather groups k ih =>
    exact Custody.Gathers.frame h le_rfl fun r G G' rest more => (ih r rest).mono more
  | spawn description g k ih => exact ⟨h.1, ih h.2⟩

theorem Tracks.bind {f : α → Prog β} (h : p.Tracks K Q O)
    (next : ∀ a G, Q a G → (f a).Tracks K R (G + F)) : (p >>= f).Tracks K R (O + F) :=
  h.andThen next fun _ _ => trivial

theorem Tracks.imp {R : α → Multiset Nat → Prop} (h : p.Tracks K Q O)
    (ends : ∀ a G, Q a G → R a G) : p.Tracks K R O := by
  have := h.andThen (F := 0) (f := done) (fun a G given => ⟨G, (add_zero G).ge, ends a G given⟩)
    fun _ _ => trivial
  rwa [andThen_done, add_zero] at this

theorem Tracks.awaited (h : p.Tracks K Q O) : p.awaited.Tracks K Q O := by
  have := h.andThen (F := 0) (f := fun r => rest 1 (done r))
    (fun a G given => ⟨G, (add_zero G).ge, given⟩) fun _ _ => trivial
  rwa [add_zero] at this

theorem Tracks.relayed (h : p.Tracks K Q O) : p.relayed.Tracks K Q O := by
  intro before
  have := h.andThen (F := 0) (f := fun r => mark fun after => rest (if after = before then 2 else 1) (done r))
    (fun a G given _ => ⟨G, (add_zero G).ge, given⟩) fun _ _ _ => trivial
  rwa [add_zero] at this

theorem Tracks.noted {s : Shape} {p : Prog s.Value} {Q : s.Value → Multiset Nat → Prop} {g : Goal s}
    (h : p.Tracks K Q O) : (p.noted g).Tracks K Q O := by
  have := h.andThen (F := 0) (f := fun r => note g r (done r))
    (fun a G given => ⟨G, (add_zero G).ge, given⟩) fun _ _ => trivial
  rwa [add_zero] at this

end Prog

/-- No number was given out and no body kept. -/
def Session.Steady (s s' : Session) : Prop :=
  s'.nextSymbol = s.nextSymbol ∧ s'.outcome = s.outcome

theorem Session.Steady.refl (s : Session) : s.Steady s := ⟨rfl, rfl⟩

theorem Session.Steady.trans {s s' s'' : Session} (first : s.Steady s') (second : s'.Steady s'') :
    s.Steady s'' := ⟨second.1.trans first.1, second.2.trans first.2⟩

namespace Action

variable {α γ : Type}

abbrev Steady (a : Action α) : Prop := a.Within Session.Steady

theorem Steady.bind {a : Action α} {f : α → Action γ} (first : a.Steady) (next : ∀ x, (f x).Steady) :
    (a >>= f).Steady := Within.bind .trans first next

theorem steady_pure (a : α) : (pure a : Action α).Steady := .refl

theorem steady_get : (get : Action Session).Steady := .refl

theorem steady_log (depth : Nat) (message : String) (values : List String) : (log depth message values).Steady := by
  intro s
  simp only [log, exec_modify]
  split
  · exact ⟨rfl, rfl⟩
  · exact .refl s

theorem steady_report (env : Env) (d : Diagnostic) : (report env d).Steady :=
  (steady_log _ _ _).bind fun _ _ => ⟨rfl, rfl⟩

theorem steady_inferVar (i : InferIndex) : (inferVar i).Steady := by
  intro s
  rw [exec_inferVar]
  exact .refl s

theorem steady_variableTy (v : Variable) : (variableTy v).Steady := by
  intro s
  rw [exec_variableTy]
  exact .refl s

theorem steady_setVariableTy (v : Variable) (ty : Ty) : (setVariableTy v ty).Steady :=
  fun _ => ⟨rfl, rfl⟩

theorem steady_settleOldest (running : Nat) : (settleOldest running).Steady :=
  within_settleOldest .trans .refl (fun _ _ => ⟨rfl, rfl⟩) (fun _ _ => ⟨rfl, rfl⟩) (fun _ _ => ⟨rfl, rfl⟩) running

end Action

theorem Change.steady (c : Change) (s : Session) : s.Steady (c.deed.apply s) := by
  rw [← c.session_action, c.exec_action]
  split
  · exact .refl s
  rename_i v _
  split
  · exact .refl s
  have edits (i : InferIndex) (f : InferVar → InferVar) : (Action.modifyInferVar i f).Steady := fun _ => ⟨rfl, rfl⟩
  have tells (i : InferIndex) : (Action.notify i).Steady := fun _ => ⟨rfl, rfl⟩
  have records : (c.record v).Steady := by
    cases c with
    | lower i b =>
      exact (edits i _).bind fun _ => (Action.steady_log _ _ _).bind fun _ => (tells i).bind fun _ => .refl
    | edge i j =>
      exact (edits i _).bind fun _ => (Action.steady_inferVar j).bind fun _ => (edits j _).bind fun _ =>
        (tells i).bind fun _ => (tells j).bind fun _ => .refl
    | upper i b | fact i p o | exclusion i p => exact (edits i _).bind fun _ => (tells i).bind fun _ => .refl
  exact records s

end Ownership
