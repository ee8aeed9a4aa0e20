import Ownership.Proofs.Crews
import Ownership.Proofs.Prospects

namespace Ownership

/-- The program goes straight for a lower bound of the variable, in whichever good sessions it finds itself: until
there is one, it neither ends nor asks others, and it waits for this variable only, if at all. -/
inductive Prog.Heads (waits : Prop) (good : Session → Prop) (i : InferIndex) {α : Type} : Prog α → Prop
  | park {speculation : Option Nat} {enough : InferVar → Bool} {k : Wake → Prog α} (may : waits)
    (bounds : ∀ v, enough v = true → v.lower.isSome = true) : Heads waits good i (.park i speculation enough k)
  | update {f : Session → Session} {k : Session → Prog α}
    (next : ∀ s, good s → ¬ (f s).Bounded i → Heads waits good i (k s)) : Heads waits good i (.update f k)
  | call {s : Shape} {g : Goal s} {k : Except Failure s.Value → Prog α}
    (next : Heads waits good i ((Rules.answer s g).andThen k)) : Heads waits good i (.call g k)
  | rest {turns : Nat} {k : Prog α} (next : Heads waits good i k) : Heads waits good i (.rest turns k)
  | mark {k : Nat → Prog α} (next : ∀ n, Heads waits good i (k n)) : Heads waits good i (.mark k)
  | note {s : Shape} {g : Goal s} {r : Except Failure s.Value} {k : Prog α} (next : Heads waits good i k) :
    Heads waits good i (.note g r k)

namespace Prog

variable {α β : Type} {p : Prog α} {waits : Prop} {good : Session → Prop} {i : InferIndex}

theorem Heads.andThen (heads : p.Heads waits good i) (f : Except Failure α → Prog β) :
    (p.andThen f).Heads waits good i := by
  induction heads with
  | park may bounds => exact .park may bounds
  | update next ih => exact .update ih
  | call next ih =>
    refine .call ?_
    rw [andThen_assoc] at ih
    exact ih
  | rest next ih => exact .rest ih
  | mark next ih => exact .mark ih
  | note next ih => exact .note ih

theorem heads_perform_bind {a : Action α} {f : α → Prog β}
    (next : ∀ s, good s → ¬ (a.exec s).2.Bounded i → ∃ x, (a.exec s).1 = .ok x ∧ (f x).Heads waits good i) :
    (perform a >>= f).Heads waits good i := by
  refine .update fun s fine free => ?_
  obtain ⟨x, ended, heads⟩ := next s fine free
  change (resume f (a.exec s).1).Heads waits good i
  rw [ended]
  exact heads

theorem heads_log_bind {depth : Nat} {message : String} {values : List String} {f : Unit → Prog β}
    (next : (f ()).Heads waits good i) : (perform (Action.log depth message values) >>= f).Heads waits good i :=
  heads_perform_bind fun s _ _ => ⟨(), (Action.exec_log depth message values s).1, next⟩

end Prog

def Session.Takes (i : InferIndex) (t : Term) (s : Session) : Prop := i < s.inferVars.length ∧ s.Sees i t

theorem Session.Takes.onward {s s' : Session} {i : InferIndex} {t : Term} (takes : s.Takes i t) (onward : s.Onward s') :
    s'.Takes i t := ⟨onward.inside takes.1, onward.sees takes.1 takes.2⟩

namespace Rules

open Ownership.Action Prog

variable (env : Env) (o : Obligation) {i : InferIndex} {s : Session}

theorem exec_checkHome {v : InferVar} {t : Term} (found : s.inferVars[i]? = some v) (sees : s.Sees i t) :
    (checkHome env i t o).exec s = (.ok (), s) := by
  have seen := sees v found
  rw [checkHome, exec_bind, exec_inferVar, found]
  simp only [Option.elim]
  generalize t.freeVariables = us at seen
  induction us with
  | nil => rfl
  | cons u us ih =>
    obtain ⟨first, rest⟩ := List.forall_mem_cons.mp seen
    have here : v.home.canSee ((s.universes.lookup u).getD .root) = true := first
    rw [List.forM_eq_forM, List.forM_cons, exec_bind, exec_bind]
    simp only [Action.universeOf, exec_bind, exec_get, exec_pure, here, if_true]
    exact ih rest

theorem bounded_recordLower {t : Term} (takes : s.Takes i t) : ((recordLower env i t o).exec s).2.Bounded i := by
  obtain ⟨inside, sees⟩ := takes
  have found := List.getElem?_eq_getElem inside
  rw [recordLower, exec_bind, exec_inferVar, found]
  simp only [Option.elim]
  cases free : s.inferVars[i].lower with
  | some b => exact ⟨_, found, by rw [free]; rfl⟩
  | none =>
    obtain ⟨s', set, vars, _⟩ := sets_setLowerBound (b := ⟨t, o⟩) found free
    rw [exec_bind, exec_checkHome env o found sees]
    simp only [exec_bind, set]
    refine ⟨{ s.inferVars[i] with lower := some ⟨t, o⟩ }, ?_, rfl⟩
    rw [exec_pure, vars, List.getElem?_modify_eq, found]
    rfl

theorem heads_subTys (name : TyName) (args : List Term) :
    (subTys env (.named name args) (.infer i) o).Heads False (Session.Takes i (.ty (.named name args))) i := by
  have apart (env : Env) : (subApart env (.named name args) (.infer i) o).Heads False
      (Session.Takes i (.ty (.named name args))) i := by
    refine .rest (.rest (.mark fun _ => .call (Heads.andThen (Heads.andThen ?_ _) _)))
    exact heads_perform_bind fun s takes free => absurd (bounded_recordLower env o takes) free
  rw [subTys, if_neg nofun]
  exact Heads.andThen (heads_log_bind (Heads.andThen (Heads.andThen (apart env.fork) _) _)) _

end Rules

/-- The answer is possible as long as every promised variable has a lower bound before somebody is settled. -/
def Goal.Plausible (promised : InferIndex → Prop) : {s : Shape} → Goal s → Except Failure s.Value → Prop
  | _, .lowerBound _ i, r => promised i → r ≠ .ok none
  | _, _, _ => True

theorem Goal.Plausible.fewer {promised more : InferIndex → Prop} {s : Shape} {g : Goal s} {r : Except Failure s.Value}
    (credible : g.Plausible more r) (le : ∀ i, promised i → more i) : g.Plausible promised r := by
  cases g with
  | lowerBound env i => exact fun named => credible (le i named)
  | _ => trivial

namespace Prog

variable {α β : Type} {p : Prog α} {numeric : Prop} {promised more : InferIndex → Prop} {s s' : Session}

def Gives (s s' : Session) (p : Prog α) : Prop :=
  ∃ i env o, s' = (Deed.fallback i (.numeric env o)).apply s ∧
    (i < s.inferVars.length → p.Heads True (fun s => i < s.inferVars.length) i)

/-- The program is dutiful in every session to which the given one leads, and so is each step that numeric
obligations take besides, if it is one of theirs. Whoever waits for a promised variable waits for a lower bound. -/
def Minds (numeric : Prop) : Prog α → (InferIndex → Prop) → Session → Prop
  | .done _, _, _ => True
  | .update f k, promised, s => ∀ s', s.Onward s' → s'.Poised →
    (Conduct.dutiful.Does s' (f s') ∨ numeric ∧ (k s').Gives s' (f s')) ∧
      (k s').Minds numeric (fun i => promised i ∨ (f s').default? i ≠ none) (f s')
  | .call g k, promised, s => (g.Usual Obligation.Awaits True ∨ numeric ∧ g.IsNumeric) ∧
    ∀ r, g.Plausible promised r → (k r).Minds numeric promised s
  | .rest _ k, promised, s => k.Minds numeric promised s
  | .mark k, promised, s => ∀ n, (k n).Minds numeric promised s
  | .note _ _ k, promised, s => k.Minds numeric promised s
  | .park i _ enough k, promised, s => i < s.inferVars.length ∧ ((∀ w, (k w).Minds numeric promised s) ∨
    promised i ∧ (∀ v, enough v = true → v.lower.isSome = true) ∧
      ∀ w s', s.Onward s' → s'.Bounded i → (k w).Minds numeric promised s')
  | .race _ _ tests k, promised, s => (∀ g ∈ tests, Conduct.dutiful.Asks g) ∧ ∀ r, (k r).Minds numeric promised s
  | .gather groups k, promised, s => (∀ group ∈ groups, ∀ s, ∀ g ∈ group s, Conduct.dutiful.Asks g) ∧
    ∀ r, (k r).Minds numeric promised s
  | .contest _ tests k, promised, s => (∀ g ∈ tests, Conduct.dutiful.Asks g) ∧ ∀ r, (k r).Minds numeric promised s
  | .spawn _ g k, promised, s => Conduct.dutiful.Posts g ∧ k.Minds numeric promised s

theorem Minds.mono (h : p.Minds numeric promised s) (le : ∀ i, promised i → more i) (onward : s.Onward s') :
    p.Minds numeric more s' := by
  induction p generalizing promised more s s' with
  | done r => trivial
  | update f k ih =>
    intro s₁ later poised
    obtain ⟨does, rest⟩ := h s₁ (onward.trans later) poised
    exact ⟨does, ih s₁ rest (fun i => Or.imp_left (le i)) (.refl _)⟩
  | call g k ih => exact ⟨h.1, fun r credible => ih r (h.2 r (credible.fewer le)) le onward⟩
  | rest turns k ih | note g r k ih => exact ih h le onward
  | mark k ih => exact fun n => ih n (h n) le onward
  | park i speculation enough k ih =>
    obtain ⟨inside, goes⟩ := h
    refine ⟨onward.inside inside, goes.imp (fun goes w => ih w (goes w) le onward) fun ⟨named, bounds, goes⟩ => ?_⟩
    exact ⟨le i named, bounds, fun w s₁ later bounded => ih w (goes w s₁ (onward.trans later) bounded) le (.refl _)⟩
  | race decisive passed tests k ih | gather groups k ih | contest search tests k ih =>
    exact ⟨h.1, fun r => ih r (h.2 r) le onward⟩
  | spawn description g k ih => exact ⟨h.1, ih h.2 le onward⟩

theorem KeepsFrom.minds_andThen {f : Except Failure α → Prog β} {known : Nat} (kept : p.KeepsFrom .dutiful known)
    (le : known ≤ s.inferVars.length) (next : ∀ r more s', (∀ i, promised i → more i) → s.Onward s' →
      (f r).Minds numeric more s') : (p.andThen f).Minds numeric promised s := by
  induction p generalizing known promised s with
  | done r => exact next r _ s (fun _ => id) (.refl s)
  | update g k ih =>
    intro s₁ later poised
    obtain ⟨does, rest⟩ := kept s₁ (Nat.le_trans le later.known)
    have onward := does.proceeds.1.toOnward
    refine ⟨.inl does, ih s₁ rest onward.known fun r more s₂ le' later' => ?_⟩
    exact next r more s₂ (fun i named => le' i (.inl named)) ((later.trans onward).trans later')
  | call g k ih => exact ⟨.inl kept.1, fun r _ => ih r (kept.2 r) le next⟩
  | rest turns k ih | note g r k ih => exact ih kept le next
  | mark k ih => exact fun n => ih n (kept n) le next
  | park i speculation enough k ih =>
    exact ⟨Nat.lt_of_lt_of_le kept.1 le, .inl fun w => ih w (kept.2 w) le next⟩
  | race decisive passed tests k ih | gather groups k ih => exact ⟨kept.1, fun r => ih r (kept.2 r) le next⟩
  | contest search tests k ih => exact ⟨kept.1.2, fun r => ih r (kept.2 r) le next⟩
  | spawn description g k ih => exact ⟨kept.1, ih kept.2 le next⟩

end Prog

namespace Rules

open Prog

variable (env : Env) {numeric : Prop} {promised : InferIndex → Prop} {s : Session} {α β : Type} {i : InferIndex}

theorem minds_inferVar_bind {f : InferVar → Prog β} {k : Except Failure β → Prog α}
    (fails : ∀ e s', s.Onward s' → (k (.error e)).Minds numeric promised s')
    (next : ∀ v s', s.Onward s' → s'.inferVars[i]? = some v → ((f v).andThen k).Minds numeric promised s') :
    ((perform (Action.inferVar i) >>= f).andThen k).Minds numeric promised s := by
  intro s' later poised
  change (Conduct.dutiful.Does s' ((Action.inferVar i).exec s').2 ∨ _) ∧
    ((resume f ((Action.inferVar i).exec s').1).andThen k).Minds numeric _ ((Action.inferVar i).exec s').2
  rw [Action.exec_inferVar]
  refine ⟨.inl .refl, Minds.mono ?_ (fun _ => .inl) (.refl _)⟩
  cases found : s'.inferVars[i]? with
  | none => exact fails _ s' later
  | some v => exact next v s' later found

theorem minds_lowerBound {k : Except Failure (Option Bound) → Prog α} (named : promised i)
    (next : ∀ r more s', (∀ j, promised j → more j) → s.Onward s' → r ≠ .ok none → (k r).Minds numeric more s') :
    ((answer .bound (.lowerBound env i)).andThen k).Minds numeric promised s := by
  have ends (s' : Session) (later : s.Onward s') (r : Except Failure (Option Bound)) (other : r ≠ .ok none) :
      (note (.lowerBound env i) r (k r)).Minds numeric promised s' := next r _ s' (fun _ => id) later other
  rw [answer, noted, andThen_assoc]
  refine minds_inferVar_bind (fun e s₁ later => ends s₁ later (.error e) nofun) fun v s₁ later found => ?_
  cases v.lower with
  | some b => exact ends s₁ later (.ok (some b)) nofun
  | none =>
    refine ⟨(List.getElem?_eq_some_iff.mp found).1, .inr ⟨named, fun _ => id, fun w s₂ later' bounded => ?_⟩⟩
    refine minds_inferVar_bind (fun e s₃ later'' => ?_) fun v s₃ later'' found => ?_
    · exact ends s₃ ((later.trans later').trans later'') (.error e) nofun
    · refine ends s₃ ((later.trans later').trans later'') (.ok v.lower) fun missing => ?_
      obtain ⟨w, known, lower⟩ := later''.bounded bounded
      cases found.symm.trans known
      rw [Except.ok.inj missing] at lower
      exact nomatch lower

variable (o : Obligation)

theorem heads_lowerBound : (lowerBound env i).Heads True (fun s => i < s.inferVars.length) i := by
  refine heads_perform_bind (a := Action.inferVar i) fun s inside free => ?_
  rw [Action.exec_inferVar] at free ⊢
  refine ⟨s.inferVars[i], by simp [inside], ?_⟩
  cases bound : s.inferVars[i].lower with
  | some b => exact absurd ⟨_, List.getElem?_eq_getElem inside, by rw [bound]; rfl⟩ free
  | none => exact .park trivial fun _ => id

theorem heads_onLowerBound (next : Ty → Obligation → Prog Unit) :
    (onLowerBound env i o next).Heads True (fun s => i < s.inferVars.length) i :=
  .call (Heads.andThen (Heads.andThen (heads_lowerBound env) _) _)

theorem exec_setFallback_inside (inside : i < s.inferVars.length) (d : Default) :
    ((Action.setFallback i d).exec s).1 = .ok () := by
  simp only [Action.setFallback, Action.exec_bind, Action.exec_inferVar, List.getElem?_eq_getElem inside, Option.elim]
  split <;> rfl

theorem minds_numeric (t : Ty) {k : Except Failure Unit → Prog α} (may : numeric)
    (next : ∀ r more s', (∀ j, promised j → more j) → s.Onward s' → (k r).Minds numeric more s') :
    ((answer .unit (.numeric env t o)).andThen k).Minds numeric promised s := by
  have looks := Conduct.checks_dutiful.looks
  have ends (more : InferIndex → Prop) (s' : Session) (le : ∀ j, promised j → more j) (later : s.Onward s')
      (r : Except Failure Unit) : (note (.numeric env t o) r (k r)).Minds numeric more s' := next r more s' le later
  rw [answer, noted, andThen_assoc]
  have plain (kept : (Rules.numeric env t o).Heeds Conduct.dutiful.keeping) :
      ((Rules.numeric env t o).andThen fun r => note (.numeric env t o) r (k r)).Minds numeric promised s :=
    (kept 0).minds_andThen (Nat.zero_le _) fun r more s' le later => ends more s' le later r
  change ((Rules.numeric env t o).andThen _).Minds numeric promised s
  cases head : t.head with
  | infer i =>
    rw [Rules.numeric, head]
    intro s₁ later poised
    let d : Deed := .fallback i (.numeric env o)
    obtain ⟨advances, _, _, given⟩ := Deed.fallback_advances i env o s₁
    change (_ ∨ _ ∧ (Prog.andThen _ (resume _ ((Action.setFallback i (.numeric env o)).exec s₁).1)).Gives s₁ (d.apply s₁)) ∧
      ((resume _ ((Action.setFallback i (.numeric env o)).exec s₁).1).andThen _).Minds numeric _ (d.apply s₁)
    have ended (r : Except Failure Unit) := ends (fun j => promised j ∨ (d.apply s₁).default? j ≠ none) (d.apply s₁)
      (fun _ => .inl) (later.trans advances.toOnward) r
    by_cases inside : i < s₁.inferVars.length
    · rw [exec_setFallback_inside inside]
      dsimp only [resume]
      refine ⟨.inr ⟨may, i, env, o, rfl, fun _ => ?_⟩, .inl trivial, fun r credible => ?_⟩
      · exact Heads.andThen (heads_onLowerBound env o _) _
      · cases r with
        | error e => exact ended (.error e)
        | ok bound =>
          cases bound with
          | none => exact absurd rfl (credible (.inr (given inside)))
          | some b =>
            obtain ⟨term, origin⟩ := b
            cases term with
            | ty t => exact fun _ => ⟨.inr ⟨may, trivial⟩, fun r _ _ => ended r⟩
            | _ => exact ended _
    · have failed : ((Action.setFallback i (.numeric env o)).exec s₁).1 = .error (.violated (.unknownInferVar i)) := by
        rw [Action.setFallback, Action.exec_bind, Action.exec_inferVar, List.getElem?_eq_none (Nat.le_of_not_lt inside)]
        rfl
      rw [failed]
      exact ⟨.inr ⟨may, i, env, o, rfl, fun there => absurd there inside⟩, ended _⟩
  | error r => exact plain (by rw [Rules.numeric, head]; exact heeds_raise r)
  | never => exact plain (by rw [Rules.numeric, head]; exact heeds_pure _)
  | var v => exact plain (by rw [Rules.numeric, head]; exact heeds_refuse looks env o rfl)
  | named name args =>
    refine plain ?_
    rw [Rules.numeric, head]
    cases name with
    | primitive p =>
      dsimp only
      split
      · exact heeds_pure _
      · exact heeds_refuse looks env o rfl
    | _ => exact heeds_refuse looks env o rfl

theorem minds_answer {shape : Shape} {g : Goal shape} (usual : g.Usual Obligation.Awaits True) :
    (answer shape g).Minds numeric promised s := by
  have kept : ((answer shape g).andThen done).Minds numeric promised s :=
    (keeps_answer_dutiful usual 0).minds_andThen (Nat.zero_le _) fun _ _ _ _ _ => trivial
  rwa [andThen_done] at kept

theorem minds_posted {g : Goal .unit} (posts : Conduct.dutiful.Posts g) (may : numeric) :
    (answer .unit g).Minds numeric promised s := by
  rcases posts with usual | isNumeric
  · exact minds_answer usual
  · cases g with
    | numeric env t o =>
      have minds : ((answer .unit (.numeric env t o)).andThen done).Minds numeric promised s :=
        minds_numeric env o t may fun _ _ _ _ _ => trivial
      rwa [andThen_done] at minds
    | _ => exact isNumeric.elim

theorem minds_called {shape : Shape} {g : Goal shape} {k : Except Failure shape.Value → Prog α}
    (called : (Prog.call g k).Minds numeric promised s) : ((answer shape g).andThen k).Minds numeric promised s := by
  obtain ⟨usual | ⟨may, isNumeric⟩, next⟩ := called
  · have plain (credible : ∀ r, g.Plausible promised r) : ((answer shape g).andThen k).Minds numeric promised s :=
      (keeps_answer_dutiful usual 0).minds_andThen (Nat.zero_le _) fun r more s' le later =>
        (next r (credible r)).mono le later
    cases g with
    | lowerBound env i =>
      by_cases named : promised i
      · exact minds_lowerBound env named fun r more s' le later other => (next r fun _ => other).mono le later
      · exact plain fun _ named' => absurd named' named
    | _ => exact plain fun _ => trivial
  · cases g with
    | numeric env t o => exact minds_numeric env o t may fun r more s' le later => (next r trivial).mono le later
    | _ => exact isNumeric.elim

end Rules

namespace Live

variable {β : Type} {heard : Wake → Prop} {promised : InferIndex → Prop} {s s' : Session} {i : InferIndex}
  {t : Sigma (Live β)} {new : List (Sigma (Live β))} {roll roll' : Roll} {w w' : Moment}

def Heads (waits : Prop) (good : Session → Prop) (i : InferIndex) {d : Dest} : Live β d → Prop
  | .running code => code.Heads waits good i
  | .parked code => waits ∧ ∃ speculation enough k, code = Machine.woken i speculation enough k ∧
    ∀ v, enough v = true → v.lower.isSome = true
  | _ => False

def Minds (numeric : Prop) (promised : InferIndex → Prop) (s : Session) {d : Dest} : Live β d → Prop
  | .running code => code.Minds numeric promised s
  | .parked code => ∃ i speculation enough k, code = Machine.woken i speculation enough k ∧
    (Prog.park i speculation enough k).Minds numeric promised s
  | .racing _ _ code => ∀ r, (code r).Minds numeric promised s
  | .gathering _ _ groups code => (∀ group ∈ groups, ∀ s, ∀ g ∈ group s, Conduct.dutiful.Asks g) ∧
    ∀ r, (code r).Minds numeric promised s
  | .contesting _ code => ∀ r, (code r).Minds numeric promised s

theorem Minds.mono {numeric : Prop} {more : InferIndex → Prop} {d : Dest} {t : Live β d}
    (h : t.Minds numeric promised s) (le : ∀ i, promised i → more i) (onward : s.Onward s') :
    t.Minds numeric more s' := by
  cases t with
  | running code => exact Prog.Minds.mono h le onward
  | parked code =>
    obtain ⟨i, speculation, enough, k, same, minds⟩ := h
    exact ⟨i, speculation, enough, k, same, minds.mono le onward⟩
  | racing join decisive code | contesting join code => exact fun r => (h r).mono le onward
  | gathering join shape groups code => exact ⟨h.1, fun r => (h.2 r).mono le onward⟩

theorem Next.heads {waits : Prop} {good : Session → Prop} (next : Live.Next Rules.answer heard roll w t new roll' w')
    (heads : t.2.Heads waits good i) (fine : good w.session) (inside : ∀ s, good s → i < s.inferVars.length)
    (told : heard .settled → w.session.Bounded i) :
    w'.session.Bounded i ∨ ∃ t' ∈ new, t'.1 = t.1 ∧ t'.2.Heads waits good i := by
  have single {d : Dest} {t : Live β d} (heads : t.Heads waits good i) :
      ∃ t' ∈ [(⟨d, t⟩ : Sigma (Live β))], t'.1 = d ∧ t'.2.Heads waits good i := ⟨_, List.mem_singleton_self _, rfl, heads⟩
  cases next with
  | @update d f k =>
    by_cases bounded : (f w.session).Bounded i
    · exact .inl bounded
    · cases heads with
      | update next => exact .inr (single (next w.session fine bounded))
  | call =>
    cases heads with
    | call next => exact .inr (single next)
  | rest =>
    cases heads with
    | rest next => exact .inr (single (.rest next))
  | rested =>
    cases heads with
    | rest next => exact .inr (single next)
  | mark n =>
    cases heads with
    | mark next => exact .inr (single (next n))
  | note =>
    cases heads with
    | note next => exact .inr (single next)
  | park =>
    cases heads with
    | park may bounds => exact .inr (single ⟨may, _, _, _, rfl, bounds⟩)
  | @wake d code reason told' =>
    obtain ⟨may, speculation, enough, k, rfl, bounds⟩ : (Live.parked code : Live β d).Heads waits good i := heads
    cases reason with
    | settled => exact .inl (told told')
    | changed =>
      refine .inr (single (.update fun s₁ fine₁ free => ?_))
      have found := List.getElem?_eq_getElem (inside s₁ fine₁)
      have more : s₁.inferVars[i]?.all enough = false := by
        by_contra known
        rw [found, Option.all_some, Bool.not_eq_false] at known
        exact free ⟨_, found, bounds _ known⟩
      rw [more]
      exact .park may bounds
  | finish | untested | race | gather | contest | spawn => cases heads
  | _ => exact heads.elim

theorem minds_woken {α : Type} {numeric : Prop} {speculation : Option Nat} {enough : InferVar → Bool}
    {k : Wake → Prog α} (parked : (Prog.park i speculation enough k).Minds numeric promised s) :
    (Machine.woken i speculation enough k .changed).Minds numeric promised s := by
  intro s₁ later poised
  refine ⟨.inl .refl, Prog.Minds.mono ?_ (fun _ => .inl) (.refl s₁)⟩
  obtain ⟨inside, goes⟩ := parked
  have found := List.getElem?_eq_getElem (later.inside inside)
  dsimp only
  split
  · rename_i known
    rw [found, Option.all_some] at known
    rcases goes with plain | ⟨_, bounds, goes⟩
    · exact (plain .changed).mono (fun _ => id) later
    · exact goes .changed s₁ later ⟨_, found, bounds _ known⟩
  · exact Prog.Minds.mono ⟨inside, goes⟩ (fun _ => id) later

theorem minds_asked {shape : Shape} {join first : Nat} {goals : List (Goal shape)}
    (asks : ∀ g ∈ goals, Conduct.dutiful.Asks g) :
    ∀ t ∈ (Live.asked Rules.answer join first goals : List (Sigma (Live β))), t.2.Minds t.1.isTask promised s := by
  intro t member
  obtain ⟨⟨g, index⟩, position, rfl⟩ := List.mem_map.mp member
  obtain ⟨_, _, same⟩ := List.mem_zipIdx position
  exact Rules.minds_answer (asks g (same ▸ List.getElem_mem _))

theorem Next.minds (next : Live.Next Rules.answer heard roll w t new roll' w')
    (minds : t.2.Minds t.1.isTask promised w.session) (poised : w.session.Poised)
    (told : heard .settled → ∀ i, promised i → w.session.Bounded i) :
    (w.session.Proceeds w'.session ∨ ∃ i env o, w'.session = (Deed.fallback i (.numeric env o)).apply w.session ∧
      (i < w.session.inferVars.length →
        ∃ t' ∈ new, t'.1.isTask = true ∧ t'.2.Heads True (fun s => i < s.inferVars.length) i)) ∧
    ∀ t' ∈ new, t'.2.Minds t'.1.isTask (fun i => promised i ∨ w'.session.default? i ≠ none) w'.session := by
  let s := w.session
  have still {new : List (Sigma (Live β))} (each : ∀ t' ∈ new, t'.2.Minds t'.1.isTask promised s) :
      ∀ t' ∈ new, t'.2.Minds t'.1.isTask (fun i => promised i ∨ s.default? i ≠ none) s :=
    fun t' member => (each t' member).mono (fun _ => .inl) (.refl s)
  have single {d : Dest} {t : Live β d} (minds : t.Minds d.isTask promised s) :
      ∀ t' ∈ [(⟨d, t⟩ : Sigma (Live β))], t'.2.Minds t'.1.isTask (fun i => promised i ∨ s.default? i ≠ none) s :=
    still (List.forall_mem_singleton.mpr minds)
  cases next with
  | @update d f k =>
    obtain ⟨does | ⟨task, i, env, o, same, heads⟩, rest⟩ := minds s (.refl s) poised
    · exact ⟨.inl does.proceeds, List.forall_mem_singleton.mpr rest⟩
    · refine ⟨.inr ⟨i, env, o, same, fun inside => ⟨_, List.mem_singleton_self _, task, heads inside⟩⟩, ?_⟩
      exact List.forall_mem_singleton.mpr rest
  | finish => exact ⟨.inl (.refl s), nofun⟩
  | call => exact ⟨.inl (.refl s), single (Rules.minds_called minds)⟩
  | rest | rested | note | gather join => exact ⟨.inl (.refl s), single minds⟩
  | mark n => exact ⟨.inl (.refl s), single (minds n)⟩
  | park => exact ⟨.inl (.refl s), single ⟨_, _, _, _, rfl, minds⟩⟩
  | @wake d code reason told' =>
    obtain ⟨i, speculation, enough, k, rfl, minds⟩ : (Live.parked code : Live β d).Minds d.isTask promised s := minds
    refine ⟨.inl (.refl s), single ?_⟩
    cases reason with
    | changed => exact minds_woken minds
    | settled =>
      rcases minds.2 with plain | ⟨named, _, goes⟩
      · exact plain .settled
      · exact goes .settled s (.refl s) (told told' i named)
  | untested => exact ⟨.inl (.refl s), single (minds.2 _)⟩
  | race join | contest join => exact ⟨.inl (.refl s), still (List.forall_mem_cons.mpr ⟨minds.2, minds_asked minds.1⟩)⟩
  | raceEnds ends | contestEnds ends => exact ⟨.inl (.refl s), single (minds _)⟩
  | enlist known =>
    refine ⟨.inl (.refl s), still (List.forall_mem_cons.mpr ⟨⟨fun group member => ?_, minds.2⟩, minds_asked ?_⟩)⟩
    · exact minds.1 group (List.mem_cons_of_mem _ member)
    · exact minds.1 _ List.mem_cons_self s
  | gatherEnds ends => exact ⟨.inl (.refl s), single (minds.2 _)⟩
  | spawn =>
    refine ⟨.inl (.refl s), still (List.forall_mem_cons.mpr ⟨minds.2, List.forall_mem_singleton.mpr ?_⟩)⟩
    exact Rules.minds_posted minds.1 rfl

end Live

end Ownership
