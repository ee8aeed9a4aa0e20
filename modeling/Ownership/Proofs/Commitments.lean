import Ownership.Proofs.Alternatives
import Ownership.Proofs.ConductRules
import Ownership.Proofs.Crews

namespace Ownership

open Relation (ReflTransGen)

def Conduct.pledged (pledges : Predicate → Prop) : Conduct where
  May
    | _, .log .. => True
    | _, .report _ => True
    | _, .fact _ p _ => pledges p
    | _, .exclude _ p => pledges p.opposite
    | _, _ => False
  Calls _ g := g.Inspects ∨ ∃ p, pledges p ∧ g.Demands p
  Asks _ g := g.Inspects ∨ ∃ p, pledges p ∧ g.Demands p
  Posts _ := False
  Contests := False

abbrev Conduct.testing : Conduct := .pledged fun _ => False

section Pledges

variable {pledges more : Predicate → Prop}

theorem Conduct.looks_pledged : (Conduct.pledged pledges).Looks :=
  ⟨fun _ _ _ _ => trivial, fun _ _ _ => trivial, fun _ _ => .inl, fun _ _ => .inl⟩

theorem Conduct.demands_pledged {p : Predicate} (pledge : pledges p) : (Conduct.pledged pledges).keeping.Demands p := by
  refine Rules.demands_of_facts looks_pledged (fun _ _ _ => pledge) (fun _ _ => ?_) ?_ ?_
  · change pledges p.opposite.opposite
    rwa [Predicate.opposite_opposite]
  all_goals exact fun _ _ demands => .inr ⟨p, pledge, demands⟩

theorem Conduct.closed_pledged : (Conduct.pledged pledges).Closed Rules.answer := by
  have keeps ⦃s : Shape⦄ (g : Goal s) (asked : g.Inspects ∨ ∃ p, pledges p ∧ g.Demands p) :
      (Rules.answer s g).Keeps (.pledged pledges) := by
    refine Prog.Keeps.noted ?_ g
    rcases asked with inspects | ⟨p, pledge, demands⟩
    · exact Rules.heeds_test (C := keeping _) looks_pledged g inspects
    · exact Rules.heeds_demand (demands_pledged pledge) g demands
  exact ⟨keeps, keeps, fun _ => False.elim⟩

theorem Prog.KeepsFrom.pledge {α : Type} {p : Prog α} {known : Nat} (kept : p.KeepsFrom (.pledged pledges) known)
    (le : ∀ p, pledges p → more p) : p.KeepsFrom (.pledged more) known := by
  refine kept.weaken (fun _ d may => ?_) ?_ ?_ (fun _ => id) id
  · cases d with
    | fact i p o | exclude i p => exact le _ may
    | _ => exact may
  · exact fun _ g => Or.imp_right fun ⟨p, pledge, demands⟩ => ⟨p, le p pledge, demands⟩
  · exact fun _ g => Or.imp_right fun ⟨p, pledge, demands⟩ => ⟨p, le p pledge, demands⟩

theorem Live.KeepsFrom.pledge {β : Type} {d : Dest} {t : Live β d} {known : Nat}
    (kept : t.KeepsFrom (.pledged pledges) known) (le : ∀ p, pledges p → more p) :
    t.KeepsFrom (.pledged more) known := by
  cases t with
  | running code => exact Prog.KeepsFrom.pledge kept le
  | parked code => exact fun reason => (kept reason).pledge le
  | racing join decisive code => exact fun r => (kept r).pledge le
  | gathering join s groups code =>
    refine ⟨fun group member s g asked => ?_, fun r => (kept.2 r).pledge le⟩
    exact (kept.1 group member s g asked).imp_right fun ⟨p, pledge, demands⟩ => ⟨p, le p pledge, demands⟩
  | contesting join code => exact kept.1.elim

theorem Session.Alike.shares {s s' : Session} (alike : s.Alike s') :
    s'.searches = s.searches ∧ s'.inferVars = s.inferVars := by
  obtain ⟨_, _, _, _, rfl⟩ := alike
  exact ⟨rfl, rfl⟩

theorem Conduct.Does.pledged {s s' : Session} (does : (Conduct.pledged pledges).Does s s') :
    s'.searches = s.searches ∧ ((∀ p, ¬ pledges p) → s'.inferVars = s.inferVars) := by
  refine does.within (R := fun s s' => s'.searches = s.searches ∧ ((∀ p, ¬ pledges p) → s'.inferVars = s.inferVars))
    (fun _ => ⟨rfl, fun _ => rfl⟩)
    (fun first second => ⟨second.1.trans first.1, fun none => (second.2 none).trans (first.2 none)⟩) fun d s may => ?_
  have change (c : Change) (kept : ∀ v, ((c.record v).exec s).2.searches = s.searches) :
      (c.deed.apply s).searches = s.searches := by
    rw [← c.session_action, c.exec_action]
    split
    · rfl
    · split
      · rfl
      · exact kept _
  cases d with
  | log depth message values =>
    have same := (Action.exec_log depth message values s).2.shares
    exact ⟨same.1, fun _ => same.2⟩
  | report d => exact ⟨rfl, fun _ => rfl⟩
  | fact i p o => exact ⟨change (.fact i p o) fun _ => rfl, fun none => (none _ may).elim⟩
  | exclude i p => exact ⟨change (.exclusion i p) fun _ => rfl, fun none => (none _ may).elim⟩
  | _ => exact may.elim

end Pledges

def Stand.ended : Except Failure Bool → Stand
  | .ok true => .proven
  | _ => .leaving

inductive Prog.Branch (i node : Nat) (p : Predicate) : Stand → Prog Bool → Prop
  | rest {stand : Stand} {turns : Nat} {k : Prog Bool} (next : Branch i node p stand k) :
    Branch i node p stand (.rest turns k)
  | mark {stand : Stand} {k : Nat → Prog Bool} (next : ∀ n, Branch i node p stand (k n)) :
    Branch i node p stand (.mark k)
  | note {stand : Stand} {s : Shape} {g : Goal s} {r : Except Failure s.Value} {k : Prog Bool}
    (next : Branch i node p stand k) : Branch i node p stand (.note g r k)
  | contend {env : Env} {lower upper : Perm} {o : Obligation} {k : Except Failure Bool → Prog Bool}
    (next : ∀ r, Branch i node p (.ended r) (k r)) :
    Branch i node p .choosing (.call (.contend env i node p lower upper o) k)
  | choose {f : Session → Session} {k : Session → Prog Bool} (still : ∀ s, f s = s)
    (required : ∀ s search, s.searches[i]? = some search → search.isRequired node = true →
      Branch i node p .requiring (k s))
    (free : ∀ s search, s.searches[i]? = some search → search.isRequired node = false →
      Branch i node p .testing (k s)) :
    Branch i node p .choosing (.update f k)
  | speculate {stand : Stand} {f : Session → Session} {k : Session → Prog Bool}
    (quiet : ∀ s, (f s).searches = s.searches ∧ (f s).inferVars = s.inferVars)
    (next : ∀ s, Branch i node p stand (k s)) : Branch i node p stand (.update f k)
  | contest {tests : List (Goal .truth)} {k : Except Failure (Option Bool) → Prog Bool}
    (tested : ∀ g ∈ tests, g.Inspects) (changed : Branch i node p .choosing (k (.ok none)))
    (answered : ∀ b, Branch i node p (.ended (.ok b)) (k (.ok (some b))))
    (failed : ∀ e, Branch i node p .leaving (k (.error e))) : Branch i node p .testing (.contest i tests k)
  | gather {groups : List (Session → List (Goal .unit))} {k : Except Failure (List Unit) → Prog Bool}
    (asked : ∀ group ∈ groups, ∀ s, ∀ g ∈ group s, g.Demands p) (fulfilled : ∀ vs, Branch i node p .proven (k (.ok vs)))
    (failed : ∀ e, Branch i node p .leaving (k (.error e))) : Branch i node p .requiring (.gather groups k)
  | conclude {f : Session → Session} {k : Session → Prog Bool}
    (ends : ∀ s search released, s.searches[i]? = some search → search.conclude.release node = some released →
      (f s).searches = s.searches.set i released ∧ (f s).inferVars = s.inferVars)
    (next : ∀ s, (k s).Keeps .testing) : Branch i node p .proven (.update f k)
  | release {f : Session → Session} {k : Session → Prog Bool}
    (ends : ∀ s search released, s.searches[i]? = some search → search.release node = some released →
      (f s).searches = s.searches.set i released ∧ (f s).inferVars = s.inferVars)
    (next : ∀ s, (k s).Keeps .testing) : Branch i node p .leaving (.update f k)

namespace Action

variable {i node : Nat} {s : Session} {search released : Search}

theorem exec_concludeSearch (found : s.searches[i]? = some search) : (concludeSearch i).exec s =
    (.ok (), { s with searches := s.searches.set i search.conclude, signals := s.signals ++ [.stirred i] }) := by
  simp only [concludeSearch, Action.search, stir, exec_bind, exec_get, exec_pure, exec_modify, found, Option.getD_some]

theorem exec_releaseBranch (found : s.searches[i]? = some search) (releases : search.release node = some released) :
    (releaseBranch i node).exec s =
      (.ok (), { s with searches := s.searches.set i released, signals := s.signals ++ [.stirred i] }) := by
  simp only [releaseBranch, Action.search, stir, exec_bind, exec_get, exec_pure, exec_modify, found, Option.getD_some,
    releases]

end Action

namespace Rules

variable {i node : Nat} {p : Predicate} {env : Env} {lower upper : Perm} {o : Obligation}
variable {k : Except Failure Bool → Prog Bool}

theorem branch_contend (next : ∀ r, Prog.Branch i node p (.ended r) (k r)) :
    Prog.Branch i node p .choosing ((contend env i node p lower upper o).andThen k) := by
  refine .choose (fun s => rfl) (fun s search found required => ?_) (fun s search found free => ?_)
  · show Prog.Branch i node p _ (Prog.andThen k (ite ((s.searches[i]?.getD .start).isRequired node = true) _ _))
    rw [found, Option.getD_some, if_pos required]
    refine .gather ?_ (fun _ => .rest (next (.ok true))) fun e => .rest (next (.error e))
    simp [Goal.Demands]
  · show Prog.Branch i node p _ (Prog.andThen k (ite ((s.searches[i]?.getD .start).isRequired node = true) _ _))
    rw [found, Option.getD_some, if_neg (by simp [free])]
    refine .speculate (fun s => ⟨rfl, rfl⟩) fun s => ?_
    refine .contest ?_ ?_ (fun b => next (.ok b)) fun e => next (.error e)
    · simp [Goal.Inspects]
    · exact .speculate (fun s => ⟨rfl, rfl⟩) fun s => .contend next

theorem branch_answer (next : ∀ r, Prog.Branch i node p (.ended r) (k r)) :
    Prog.Branch i node p .choosing ((answer .truth (.contend env i node p lower upper o)).andThen k) := by
  have same : (answer .truth (.contend env i node p lower upper o)).andThen k =
      (contend env i node p lower upper o).andThen fun r => .note (.contend env i node p lower upper o) r (k r) :=
    Prog.andThen_assoc ..
  rw [same]
  exact branch_contend fun r => .note (next r)

theorem session_endBranch {s : Session} {search released : Search} {r : Except Failure Bool}
    (found : s.searches[i]? = some search) (releases : search.release node = some released)
    (unproven : ∀ b, r = .ok b → b = false) :
    ((endBranch i node r).exec s).2 =
      { s with searches := s.searches.set i released, signals := s.signals ++ [.stirred i] } := by
  have exec := Action.exec_releaseBranch found releases
  cases r with
  | error e => simp only [endBranch, Action.exec_bind, exec, Action.exec_throw]
  | ok b =>
    obtain rfl := unproven b rfl
    simp only [endBranch, Action.exec_bind, Action.exec_pure, exec]

theorem session_endBranch_proven {s : Session} {search released : Search}
    (found : s.searches[i]? = some search) (releases : search.conclude.release node = some released) :
    ((endBranch i node (.ok true)).exec s).2 =
      { s with searches := s.searches.set i released, signals := s.signals ++ [.stirred i, .stirred i] } := by
  have inside : i < s.searches.length := (List.getElem?_eq_some_iff.mp found).1
  have concluded : (s.searches.set i search.conclude)[i]? = some search.conclude := by simp [inside]
  have exec := Action.exec_releaseBranch (s := { s with
    searches := s.searches.set i search.conclude, signals := s.signals ++ [.stirred i] }) concluded releases
  simp only [endBranch, Action.exec_bind, Action.exec_pure, Action.exec_concludeSearch found, exec, List.set_set,
    List.append_assoc, List.cons_append, List.nil_append]

theorem branch_attempt (next : ∀ r, (k r).Keeps .testing) :
    Prog.Branch i node p .choosing ((attempt env i node p lower upper o).andThen k) := by
  refine .contend fun r => .rest ?_
  have leaves (unproven : ∀ b, r = .ok b → b = false) :
      Prog.Branch i node p .leaving ((Prog.perform (endBranch i node r)).andThen k) := by
    refine .release (fun s search released found releases => ?_) fun s => next _
    change ((endBranch i node r).exec s).2.searches = _ ∧ ((endBranch i node r).exec s).2.inferVars = _
    rw [session_endBranch found releases unproven]
    exact ⟨rfl, rfl⟩
  match r with
  | .ok true =>
    refine .conclude (fun s search released found releases => ?_) fun s => next _
    change ((endBranch i node (.ok true)).exec s).2.searches = _ ∧ ((endBranch i node (.ok true)).exec s).2.inferVars = _
    rw [session_endBranch_proven found releases]
    exact ⟨rfl, rfl⟩
  | .ok false | .error e => exact leaves (by simp)

end Rules

variable {β : Type} {i k : Nat} {heard : Wake → Prop}

def Trial.predicate : Nat → Predicate
  | 0 => .copy
  | _ => .move

def Trial.Pledges (t : Trial) (p : Predicate) : Prop := ∃ k ∈ t.committed, predicate k = p

inductive Live.Branching (i k : Nat) : Stand → Sigma (Live β) → Prop
  | running {stand : Stand} {join index : Nat} {code : Prog Bool}
    (branch : code.Branch i (k + 1) (Trial.predicate k) stand) :
    Branching i k stand ⟨.child .truth join index, .running code⟩
  | contesting {join index own : Nat} {code : Except Failure (Option Bool) → Prog Bool}
    (ended : Prog.Branch i (k + 1) (Trial.predicate k) .testing (.contest i [] code)) :
    Branching i k .testing ⟨.child .truth join index, .contesting own code⟩
  | gathering {join index own : Nat} {groups : List (Session → List (Goal .unit))}
    {code : Except Failure (List Unit) → Prog Bool}
    (ended : Prog.Branch i (k + 1) (Trial.predicate k) .requiring (.gather groups code)) :
    Branching i k .requiring ⟨.child .truth join index, .gathering own .unit groups code⟩

def Live.Staged (i k : Nat) (stand : Stand) (own : Multiset (Sigma (Live β))) : Prop :=
  (stand = .released ∧ own = 0) ∨ ∃ t, own = {t} ∧ Branching i k stand t

/-- The branch goes through steps of the trial; what it starts keeps to what has been pledged. -/
structure Trial.Plays (i k : Nat) (tr tr' : Trial) (s s' : Session) (new : Multiset (Sigma (Live β))) : Prop where
  steps : ReflTransGen Step tr tr'
  search : s'.searches[i]? = some tr'.search
  known : s'.inferVars = s.inferVars
  others : ∀ j, j ≠ k → tr'.stands[j]? = tr.stands[j]?
  fibers : ∃ stand own workers, tr'.stands[k]? = some stand ∧ new = own + workers ∧ Live.Staged i k stand own ∧
    ∀ t ∈ workers, t.2.KeepsFrom (.pledged tr'.Pledges) s'.inferVars.length

section Plays

variable {tr tr' : Trial} {stand : Stand} {s s' : Session} {t : Sigma (Live β)} {new : List (Sigma (Live β))}
  (found : s.searches[i]? = some tr.search) (here : tr.stands[k]? = some stand)
include found here

theorem Live.Branching.stays (branching : Branching i k stand t) (search : s'.searches = s.searches)
    (known : s'.inferVars = s.inferVars)
    (passive : ∀ t ∈ new, t.2.KeepsFrom (.pledged tr.Pledges) s'.inferVars.length) :
    tr.Plays i k tr s s' (Multiset.ofList (t :: new)) where
  steps := .refl
  search := by rw [search, found]
  known := known
  others _ _ := rfl
  fibers := ⟨stand, {t}, new, here, rfl, .inr ⟨t, rfl, branching⟩, fun t member => passive t (Multiset.mem_coe.mp member)⟩

theorem Live.Branching.moves {next : Stand} (branching : Branching i k next t) (step : tr.Step tr')
    (search : tr'.search = tr.search) (stands : tr'.stands = (tr.move k next).stands) :
    tr.Plays i k tr' s s (Multiset.ofList [t]) where
  steps := .single step
  search := by rw [search, found]
  known := rfl
  others j apart := by rw [stands, Trial.getElem?_move (Trial.lt_length here), if_neg apart]
  fibers := by
    refine ⟨next, {t}, 0, ?_, rfl, .inr ⟨t, rfl, branching⟩, fun t member => absurd member (Multiset.notMem_zero t)⟩
    rw [stands, Trial.getElem?_move (Trial.lt_length here), if_pos rfl]

omit here

theorem Live.leaves (steps : ReflTransGen Trial.Step tr tr') (fair : tr'.Fair)
    (leaving : tr'.stands[k]? = some .leaving) (others : ∀ j, j ≠ k → tr'.stands[j]? = tr.stands[j]?) {known : Nat}
    (passive : t.2.KeepsFrom .testing known)
    (ends : ∀ released, tr'.search.release (k + 1) = some released →
      s'.searches = s.searches.set i released ∧ s'.inferVars = s.inferVars ∧ known ≤ s'.inferVars.length) :
    ∃ tr'' : Trial, tr.Plays i k tr'' s s' (Multiset.ofList [t]) := by
  have releases := fair.release_eq leaving (by decide)
  obtain ⟨searches, inferVars, le⟩ := ends _ releases
  refine ⟨_, steps.tail (.release leaving releases), ?_, inferVars, fun j apart => ?_, .released, 0, {t}, ?_, ?_, ?_, ?_⟩
  · rw [searches]
    simp [(List.getElem?_eq_some_iff.mp found).1]
  · change (tr'.move k .released).stands[j]? = _
    rw [Trial.getElem?_move (Trial.lt_length leaving), if_neg apart, others j apart]
  · change (tr'.move k .released).stands[k]? = _
    rw [Trial.getElem?_move (Trial.lt_length leaving), if_pos rfl]
  · rw [zero_add]
    rfl
  · exact .inl ⟨rfl, rfl⟩
  · intro t' member
    rw [Multiset.mem_singleton.mp member]
    exact (passive.mono le).pledge fun _ => False.elim

end Plays

variable {tr : Trial}

theorem Live.Branching.next {stand : Stand} {roll roll' : Roll} {w w' : Moment} {t : Sigma (Live β)}
    {new : List (Sigma (Live β))} (branching : Branching i k stand t)
    (next : Live.Next Rules.answer heard roll w t new roll' w') (here : tr.stands[k]? = some stand) (fair : tr.Fair)
    (committed : stand = .requiring → k ∈ tr.committed) (found : w.session.searches[i]? = some tr.search) :
    ∃ tr' : Trial, tr.Plays i k tr' w.session w'.session (Multiset.ofList new) := by
  have none (known : Nat) : ∀ t ∈ ([] : List (Sigma (Live β))), t.2.KeepsFrom (.pledged tr.Pledges) known :=
    nofun
  cases branching with
  | running branch =>
    cases branch with
    | rest code =>
      cases next with
      | rest => exact ⟨tr, Branching.stays found here (.running (.rest code)) rfl rfl (none _)⟩
      | rested => exact ⟨tr, Branching.stays found here (.running code) rfl rfl (none _)⟩
    | mark code =>
      cases next with
      | mark n => exact ⟨tr, Branching.stays found here (.running (code n)) rfl rfl (none _)⟩
    | note code =>
      cases next with
      | note => exact ⟨tr, Branching.stays found here (.running code) rfl rfl (none _)⟩
    | contend code =>
      cases next with
      | call => exact ⟨tr, Branching.stays found here (.running (Rules.branch_answer code)) rfl rfl (none _)⟩
    | @choose f k' still required free =>
      cases next with
      | update =>
        have same : (w.after f).session = w.session := still w.session
        rw [same]
        by_cases holds : tr.search.isRequired (k + 1) = true
        · exact ⟨_, Branching.moves found here (.running (required w.session _ found holds)) (.require here holds) rfl rfl⟩
        · have holds' : tr.search.isRequired (k + 1) = false := Bool.not_eq_true _ ▸ holds
          exact ⟨_, Branching.moves found here (.running (free w.session _ found holds')) (.test here holds') rfl rfl⟩
    | speculate quiet code =>
      cases next with
      | update => exact ⟨tr, Branching.stays found here (.running (code w.session)) (quiet w.session).1 (quiet w.session).2 (none _)⟩
    | contest tested changed answered failed =>
      cases next with
      | contest own =>
        refine ⟨tr, Branching.stays found here (.contesting (.contest (by simp) changed answered failed)) rfl rfl ?_⟩
        exact keepsFrom_asked Conduct.closed_pledged fun g member => .inl (tested g member)
    | gather asked fulfilled failed =>
      cases next with
      | gather own =>
        exact ⟨tr, Branching.stays found here (.gathering (.gather asked fulfilled failed)) rfl rfl (none _)⟩
    | conclude ends code =>
      cases next with
      | update =>
        refine Live.leaves found (.single (.conclude here)) (fair.conclude here) ?_ (fun j apart => ?_) (code w.session 0) ?_
        · change (tr.move k .leaving).stands[k]? = _
          rw [Trial.getElem?_move (Trial.lt_length here), if_pos rfl]
        · change (tr.move k .leaving).stands[j]? = _
          rw [Trial.getElem?_move (Trial.lt_length here), if_neg apart]
        · exact fun released releases => (ends w.session _ released found releases).imp_right fun same => ⟨same, Nat.zero_le _⟩
    | release ends code =>
      cases next with
      | update =>
        refine Live.leaves found .refl fair here (fun _ _ => rfl) (code w.session 0) fun released releases => ?_
        exact (ends w.session _ released found releases).imp_right fun same => ⟨same, Nat.zero_le _⟩
  | contesting ended =>
    cases ended with
    | contest _ changed answered failed =>
      cases next with
      | @contestEnds _ _ _ r ends =>
        match r with
        | .ok .none => exact ⟨_, Branching.moves found here (.running changed) (.reconsider here) rfl rfl⟩
        | .ok (some true) => exact ⟨_, Branching.moves found here (.running (answered true)) (.accept here) rfl rfl⟩
        | .ok (some false) => exact ⟨_, Branching.moves found here (.running (answered false)) (.reject here) rfl rfl⟩
        | .error e => exact ⟨_, Branching.moves found here (.running (failed e)) (.reject here) rfl rfl⟩
  | gathering ended =>
    cases ended with
    | gather asked fulfilled failed =>
      cases next with
      | enlist known =>
        refine ⟨tr, Branching.stays found here (.gathering (.gather ?_ fulfilled failed)) rfl rfl ?_⟩
        · exact fun group member => asked group (List.mem_cons_of_mem _ member)
        · refine keepsFrom_asked Conduct.closed_pledged fun g member => .inr ⟨Trial.predicate k, ?_, ?_⟩
          · exact ⟨k, committed rfl, rfl⟩
          · exact asked _ List.mem_cons_self w.session g member
      | @gatherEnds _ _ _ _ r ends =>
        cases r with
        | ok vs => exact ⟨_, Branching.moves found here (.running (fulfilled vs)) (.fulfil here) rfl rfl⟩
        | error e => exact ⟨_, Branching.moves found here (.running (failed e)) (.fail here) rfl rfl⟩

structure Crew.Cast (i : Nat) (tr : Trial) (crew : Crew β) : Prop where
  search : crew.session.searches[i]? = some tr.search
  fibers : ∃ (own : Nat → Multiset (Sigma (Live β))) (workers : Multiset (Sigma (Live β))),
    crew.lives = own 0 + own 1 + workers ∧
    (∀ k < 2, ∃ stand, tr.stands[k]? = some stand ∧ Live.Staged i k stand (own k)) ∧
    ∀ t ∈ workers, t.2.KeepsFrom (.pledged tr.Pledges) crew.session.inferVars.length

theorem Trial.Pledges.run {tr' : Trial} {p : Predicate} (pledged : tr.Pledges p) (run : ReflTransGen Step tr tr') :
    tr'.Pledges p := by
  obtain ⟨k, committed, same⟩ := pledged
  exact ⟨k, (grows_run run).1 committed, same⟩

theorem Crew.Cast.split {s : Session} {t : Sigma (Live β)} {rest : Multiset (Sigma (Live β))}
    (cast : Crew.Cast i tr ⟨t ::ₘ rest, s⟩) :
    (∃ k stand, tr.stands[k]? = some stand ∧ Live.Branching i k stand t ∧
      ∀ tr' s' new, tr.Plays i k tr' s s' new → Crew.Cast i tr' ⟨new + rest, s'⟩) ∨
    (t.2.KeepsFrom (.pledged tr.Pledges) s.inferVars.length ∧
      ∀ (s' : Session) new, s'.searches = s.searches → s.inferVars.length ≤ s'.inferVars.length →
        (∀ t ∈ new, t.2.KeepsFrom (.pledged tr.Pledges) s'.inferVars.length) → Crew.Cast i tr ⟨new + rest, s'⟩) := by
  obtain ⟨search, own, workers, lives, staged, passive⟩ := cast
  change t ::ₘ rest = _ at lives
  have member : t ∈ own 0 + own 1 + workers := lives ▸ Multiset.mem_cons_self t rest
  have branch (k : Nat) (inside : k < 2) (mine : t ∈ own k) (other : Nat) (apart : other ≠ k) (inside' : other < 2)
      (whole : ∀ f : Nat → Multiset (Sigma (Live β)), f 0 + f 1 = f k + f other) :
      ∃ k stand, tr.stands[k]? = some stand ∧ Live.Branching i k stand t ∧
        ∀ tr' s' new, tr.Plays i k tr' s s' new → Crew.Cast i tr' ⟨new + rest, s'⟩ := by
    obtain ⟨stand, here, ⟨_, nothing⟩ | ⟨t', single, branching⟩⟩ := staged k inside
    · rw [nothing] at mine
      exact absurd mine (Multiset.notMem_zero t)
    obtain rfl : t = t' := Multiset.mem_singleton.mp (single ▸ mine)
    refine ⟨k, stand, here, branching, fun tr' s' new plays => ?_⟩
    obtain ⟨stand', own', workers', here', rfl, staged', passive'⟩ := plays.fibers
    have rest' : rest = own other + workers := by
      rw [whole own, single, add_assoc, Multiset.singleton_add, Multiset.cons_inj_right] at lives
      exact lives
    refine ⟨plays.search, fun j => if j = k then own' else own j, workers' + workers, ?_, fun j inside => ?_, ?_⟩
    · rw [whole fun j => if j = k then own' else own j]
      simp only [↓reduceIte, if_neg apart, rest']
      abel
    · by_cases same : j = k
      · subst same
        simpa using ⟨stand', here', staged'⟩
      · simpa [same, plays.others j same] using staged j inside
    · intro t' member
      rcases Multiset.mem_add.mp member with new | old
      · exact passive' t' new
      · have kept := (passive t' old).pledge fun _ (pledged : tr.Pledges _) => pledged.run plays.steps
        exact kept.mono (by rw [plays.known])
  rcases Multiset.mem_add.mp member with branches | worker
  · rcases Multiset.mem_add.mp branches with first | second
    · exact .inl (branch 0 (by decide) first 1 (by decide) (by decide) fun _ => rfl)
    · exact .inl (branch 1 (by decide) second 0 (by decide) (by decide) fun _ => add_comm _ _)
  · refine .inr ⟨passive t worker, fun s' new searches known kept => ?_⟩
    obtain ⟨workers, rfl⟩ := Multiset.exists_cons_of_mem worker
    have rest' : rest = own 0 + own 1 + workers := by
      rw [Multiset.add_cons, Multiset.cons_inj_right] at lives
      exact lives
    refine ⟨by rw [searches]; exact search, own, new + workers, ?_, staged, fun t' member => ?_⟩
    · simp only [rest']
      abel
    · rcases Multiset.mem_add.mp member with new | old
      · exact kept t' new
      · exact (passive t' (Multiset.mem_cons_of_mem old)).mono known

/-- Whichever fiber takes a step, the crew stays the one of a trial that goes on. Nothing is recorded before a
branch has committed itself. -/
theorem Crew.Cast.turn {a b : Crew β} (cast : Crew.Cast i tr a) (fair : tr.Fair)
    (requiring : ∀ k : Nat, tr.stands[k]? = some .requiring → k ∈ tr.committed) (turn : a.Turns Rules.answer heard b) :
    ∃ tr', ReflTransGen Trial.Step tr tr' ∧ Crew.Cast i tr' b ∧
      (tr'.committed = [] → b.session.inferVars = a.session.inferVars) := by
  obtain @⟨_, _, w, w', t, new, rest, s'', next, alike⟩ := turn
  have settle {tr' : Trial} {lives : Multiset (Sigma (Live β))} (cast : Crew.Cast i tr' ⟨lives, w'.session⟩) :
      Crew.Cast i tr' ⟨lives, s''⟩ := by
    obtain ⟨search, own, workers, split, staged, passive⟩ := cast
    refine ⟨by rw [alike.shares.1]; exact search, own, workers, split, staged, ?_⟩
    rw [alike.shares.2]
    exact passive
  rcases cast.split with ⟨k, stand, here, branching, replaced⟩ | ⟨kept, replaced⟩
  · obtain ⟨tr', plays⟩ := branching.next next here fair (fun same => requiring k (same ▸ here)) cast.search
    exact ⟨tr', plays.steps, settle (replaced _ _ _ plays), fun _ => alike.shares.2.trans plays.known⟩
  · obtain ⟨does, kept'⟩ := next.keeps Conduct.closed_pledged kept
    obtain ⟨searches, still⟩ := does.pledged
    refine ⟨tr, .refl, settle (replaced _ new searches does.known fun t member => kept' t (Multiset.mem_coe.mp member)), ?_⟩
    intro uncommitted
    refine alike.shares.2.trans (still ?_)
    rintro p ⟨k, committed, _⟩
    rw [uncommitted] at committed
    exact List.not_mem_nil committed

end Ownership
