import Ownership.Proofs.ConductExpressions
import Ownership.Proofs.Growth
import Ownership.Proofs.Waiters

namespace Ownership

def Diagnostic.Excused (d : Diagnostic) : Prop := d.BlamesNothing → d.code = some .awaitNonFuture

namespace Session

variable {s s' s'' : Session} {i : InferIndex}

def Bounded (s : Session) (i : InferIndex) : Prop := ∃ v : InferVar, s.inferVars[i]? = some v ∧ v.lower.isSome = true

def default? (s : Session) (i : InferIndex) : Option Default := s.inferVars[i]?.bind InferVar.fallback

/-- Upper bounds mention only what their variable can see, defaults are numeric, and no numeric obligation was
refused because nothing constrains a type. -/
structure Poised (s : Session) : Prop where
  uppers : ∀ (i : InferIndex) (v : InferVar), s.inferVars[i]? = some v → ∀ b ∈ v.uppers, s.Sees i b.term
  defaults : ∀ i d, s.default? i = some d → ∃ env o, d = Default.numeric env o
  excused : ∀ d ∈ s.diagnostics, d.Excused

structure Onward (s s' : Session) : Prop where
  grows : s.Grows s'
  universes : s'.universes = s.universes

theorem Onward.refl (s : Session) : s.Onward s := ⟨.refl s, rfl⟩

theorem Onward.trans (first : s.Onward s') (second : s'.Onward s'') : s.Onward s'' :=
  ⟨first.grows.trans second.grows, second.universes.trans first.universes⟩

theorem Onward.bounded (onward : s.Onward s') (bounded : s.Bounded i) : s'.Bounded i := by
  obtain ⟨v, found, lower⟩ := bounded
  obtain ⟨v', found', grows⟩ := onward.grows i v found
  obtain ⟨b, known⟩ := Option.isSome_iff_exists.mp lower
  exact ⟨v', found', Option.isSome_iff_exists.mpr ⟨b, grows.lower b known⟩⟩

theorem Onward.inside (onward : s.Onward s') (inside : i < s.inferVars.length) : i < s'.inferVars.length := by
  obtain ⟨v', found, _⟩ := onward.grows i _ (List.getElem?_eq_getElem inside)
  exact (List.getElem?_eq_some_iff.mp found).1

theorem Onward.known (onward : s.Onward s') : s.inferVars.length ≤ s'.inferVars.length := by
  by_contra fewer
  exact Nat.lt_irrefl _ (onward.inside (Nat.lt_of_not_le fewer))

theorem Onward.sees {t : Term} (onward : s.Onward s') (inside : i < s.inferVars.length) (sees : s.Sees i t) :
    s'.Sees i t := by
  intro v' found' u free
  obtain ⟨v'', found'', grows⟩ := onward.grows i _ (List.getElem?_eq_getElem inside)
  cases found'.symm.trans found''
  rw [grows.home, universeOf, onward.universes]
  exact sees _ (List.getElem?_eq_getElem inside) u free

structure Advances (s s' : Session) : Prop extends s.Onward s' where
  uppers : ∀ (i : InferIndex) (v' : InferVar), s'.inferVars[i]? = some v' → ∀ b ∈ v'.uppers,
    (∃ v : InferVar, s.inferVars[i]? = some v ∧ b ∈ v.uppers) ∨ s'.Sees i b.term
  diagnostics : ∀ d ∈ s'.diagnostics, d ∈ s.diagnostics ∨ d.Excused

theorem Advances.refl (s : Session) : s.Advances s :=
  ⟨.refl s, fun _ v found _ member => .inl ⟨v, found, member⟩, fun _ => .inl⟩

theorem Advances.trans (first : s.Advances s') (second : s'.Advances s'') : s.Advances s'' := by
  refine ⟨first.toOnward.trans second.toOnward, fun i v'' found b member => ?_, fun d member => ?_⟩
  · rcases second.uppers i v'' found b member with ⟨v', found', old⟩ | sees
    · exact (first.uppers i v' found' b old).imp_right (second.sees (List.getElem?_eq_some_iff.mp found').1)
    · exact .inr sees
  · exact (second.diagnostics d member).elim (first.diagnostics d) .inr

theorem Advances.poised (advances : s.Advances s') (poised : s.Poised)
    (defaults : ∀ i d, s'.default? i = some d → s.default? i = some d ∨ ∃ env o, d = Default.numeric env o) :
    s'.Poised where
  uppers i v' found b member := by
    rcases advances.uppers i v' found b member with ⟨v, found', old⟩ | sees
    · exact advances.sees (List.getElem?_eq_some_iff.mp found').1 (poised.uppers i v found' b old)
    · exact sees
  defaults i d has := (defaults i d has).elim (poised.defaults i d) id
  excused d member := (advances.diagnostics d member).elim (poised.excused d) id

theorem Advances.same (vars : s'.inferVars = s.inferVars) (universes : s'.universes = s.universes)
    (diagnostics : ∀ d ∈ s'.diagnostics, d ∈ s.diagnostics ∨ d.Excused) : s.Advances s' :=
  ⟨⟨.of_same vars, universes⟩, fun _ v found _ member => .inl ⟨v, vars ▸ found, member⟩, diagnostics⟩

theorem Alike.advances (alike : s.Alike s') : s.Advances s' := by
  obtain ⟨_, _, _, _, rfl⟩ := alike
  exact .same rfl rfl fun _ => .inl

theorem Advances.modify {f : InferVar → InferVar} (vars : s'.inferVars = s.inferVars.modify i f)
    (universes : s'.universes = s.universes) (diagnostics : s'.diagnostics = s.diagnostics)
    (grows : ∀ v, s.inferVars[i]? = some v → v.Grows (f v))
    (uppers : ∀ v, ∀ b ∈ (f v).uppers, b ∈ v.uppers ∨ s.Sees i b.term) : s.Advances s' := by
  have onward : s.Onward s' := ⟨.modify vars grows, universes⟩
  refine ⟨onward, fun k v' found b member => ?_, fun d member => .inl (diagnostics ▸ member)⟩
  obtain ⟨v, found', ⟨rfl, rfl⟩ | ⟨_, rfl⟩⟩ := getElem?_modify_cases vars found
  · refine (uppers v b member).imp (fun old => ⟨v, found', old⟩) fun sees => ?_
    exact onward.sees (List.getElem?_eq_some_iff.mp found').1 sees
  · exact .inl ⟨_, found', member⟩

theorem default?_of_vars (vars : s'.inferVars = s.inferVars) (j : InferIndex) : s'.default? j = s.default? j := by
  rw [default?, default?, vars]

theorem Alike.default? (alike : s.Alike s') (j : InferIndex) : s'.default? j = s.default? j := by
  obtain ⟨_, _, _, _, rfl⟩ := alike
  rfl

theorem default?_modify {f : InferVar → InferVar} (vars : s'.inferVars = s.inferVars.modify i f) {j : InferIndex}
    (same : i = j → ∀ v, s.inferVars[j]? = some v → (f v).fallback = v.fallback) : s'.default? j = s.default? j := by
  rw [Session.default?, Session.default?, vars, List.getElem?_modify]
  cases found : s.inferVars[j]? with
  | none => rfl
  | some v =>
    by_cases mine : i = j
    · simp [mine, same mine v found]
    · simp [mine]

end Session

def Obligation.Awaits (o : Obligation) : Prop := ∃ span futureSpan t, o.requirement = .awaitable span futureSpan t

theorem Obligation.Awaits.excused {o : Obligation} (awaits : o.Awaits) (because : Because) :
    (o.failure because).Excused := by
  obtain ⟨span, futureSpan, t, same⟩ := awaits
  intro _
  rw [failure, Diagnostic.becauseOf, diagnostic, same]
  rfl

def Goal.IsNumeric {s : Shape} : Goal s → Prop
  | .numeric .. => True
  | _ => False

def Conduct.dutiful : Conduct where
  May
    | _, .report d => d.Excused
    | _, .fallback .. => False
    | s, .upper i b => s.Sees i b.term
    | _, _ => True
  Calls _ g := g.Usual Obligation.Awaits True
  Asks _ g := g.Usual Obligation.Awaits True
  Posts g := g.Usual Obligation.Awaits True ∨ g.IsNumeric
  Contests := True

theorem Conduct.checks_dutiful : Conduct.dutiful.Checks Obligation.Awaits True where
  may s d usual := by
    cases d with
    | report d => exact fun blames => absurd blames usual
    | fallback i d => exact usual.elim
    | upper i b => exact usual
    | _ => trivial
  calls _ _ := id
  asks _ _ := id
  posts _ := .inl
  postsNumeric _ _ _ := .inr trivial
  contests := trivial
  awaitable span futureSpan t := ⟨span, futureSpan, t, rfl⟩
  because _ _ := id
  refuses awaits _ _ := awaits.excused _

theorem Rules.keeps_answer_dutiful {s : Shape} {g : Goal s} (usual : g.Usual Obligation.Awaits True) :
    (Rules.answer s g).Keeps .dutiful :=
  Prog.Keeps.noted (heeds_rule (C := Conduct.dutiful.keeping) Conduct.checks_dutiful g usual) g

def Session.Proceeds (s s' : Session) : Prop := s.Advances s' ∧ ∀ j, s'.default? j = s.default? j

namespace Session

variable {s s' : Session} {i : InferIndex}

theorem Proceeds.refl (s : Session) : s.Proceeds s := ⟨.refl s, fun _ => rfl⟩

theorem Proceeds.trans {s'' : Session} (first : s.Proceeds s') (second : s'.Proceeds s'') : s.Proceeds s'' :=
  ⟨first.1.trans second.1, fun j => (second.2 j).trans (first.2 j)⟩

theorem Alike.proceeds (alike : s.Alike s') : s.Proceeds s' := ⟨alike.advances, alike.default?⟩

theorem Proceeds.same (vars : s'.inferVars = s.inferVars) (universes : s'.universes = s.universes)
    (diagnostics : s'.diagnostics = s.diagnostics) : s.Proceeds s' :=
  ⟨.same vars universes fun _ member => .inl (diagnostics ▸ member), default?_of_vars vars⟩

theorem Proceeds.modify {f : InferVar → InferVar} (vars : s'.inferVars = s.inferVars.modify i f)
    (universes : s'.universes = s.universes) (diagnostics : s'.diagnostics = s.diagnostics)
    (grows : ∀ v, s.inferVars[i]? = some v → v.Grows (f v))
    (uppers : ∀ v, ∀ b ∈ (f v).uppers, b ∈ v.uppers ∨ s.Sees i b.term) (fallback : ∀ v, (f v).fallback = v.fallback) :
    s.Proceeds s' :=
  ⟨.modify vars universes diagnostics grows uppers, fun _ => default?_modify vars fun _ v _ => fallback v⟩

theorem Proceeds.poised (proceeds : s.Proceeds s') (poised : s.Poised) : s'.Poised :=
  proceeds.1.poised poised fun i _ has => .inl ((proceeds.2 i).symm.trans has)

theorem proceeds_record (c : Change) (sees : ∀ i b, c = .upper i b → s.Sees i b.term) :
    s.Proceeds (c.deed.apply s) := by
  rw [← c.session_action, c.exec_action]
  split
  · exact .refl s
  rename_i v found
  split
  · exact .refl s
  rename_i new
  cases c with
  | lower i b =>
    let s₁ : Session := { s with inferVars := s.inferVars.modify i fun v => { v with lower := some b } }
    have recorded : s.Proceeds s₁ := .modify rfl rfl rfl (fun w known => by
      cases found.symm.trans known
      exact InferVar.grows_lower b (by simpa [Change.isOld] using new)) (fun _ _ => .inl) fun _ => rfl
    let s₂ : Session := ((Action.log 0 "lower bound" [{ v with lower := some b }.render i]).exec s₁).2
    have logged : s₁.Proceeds s₂ := (Action.exec_log _ _ _ _).2.proceeds
    have told : s₂.Proceeds ((Action.notify i).exec s₂).2 := .same rfl rfl rfl
    exact recorded.trans (logged.trans told)
  | upper i b =>
    refine .modify (i := i) (f := fun v => { v with uppers := v.uppers ++ [b] }) rfl rfl rfl (fun w _ => w.grows_upper b)
      (fun w c member => ?_) fun _ => rfl
    rcases List.mem_append.mp member with old | last
    · exact .inl old
    · rw [List.mem_singleton.mp last]
      exact .inr (sees i b rfl)
  | fact i p o => exact .modify (i := i) rfl rfl rfl (fun w _ => w.grows_fact p o) (fun _ _ => .inl) fun _ => rfl
  | exclusion i p => exact .modify (i := i) rfl rfl rfl (fun w _ => w.grows_excluded p) (fun _ _ => .inl) fun _ => rfl
  | edge i j =>
    let f : InferVar → InferVar := (·.withSuccessor j)
    let g : InferVar → InferVar := (·.withPredecessor i)
    let s₁ : Session := { s with inferVars := s.inferVars.modify i f }
    have first : s.Proceeds s₁ := .modify rfl rfl rfl
      (fun w _ => { InferVar.Grows.refl w with successors := List.prefix_append .. }) (fun _ _ => .inl) fun _ => rfl
    have exec : ((Change.edge i j).record v).exec s = (Action.inferVar j >>= fun _ => Action.modifyInferVar j g >>= fun _ =>
      Action.notify i >>= fun _ => Action.notify j >>= fun _ => pure true).exec s₁ := rfl
    rw [exec, Action.exec_bind, Action.exec_inferVar]
    cases s₁.inferVars[j]? with
    | none => exact first
    | some u =>
      have same (w : InferVar) : w.Grows (g w) ∧ (g w).uppers = w.uppers ∧ (g w).fallback = w.fallback := by
        obtain ⟨before, same, back, _⟩ := w.withPredecessor_eq i
        rw [show g w = _ from same]
        exact ⟨{ InferVar.Grows.refl w with predecessors := back }, rfl, rfl⟩
      refine first.trans (.modify (i := j) (f := g) rfl rfl rfl (fun w _ => (same w).1) (fun w b member => ?_)
        fun w => (same w).2.2)
      exact .inl ((same w).2.1 ▸ member)

theorem proceeds_fresh (v : InferVar) (uppers : v.uppers = []) (fallback : v.fallback = none) :
    s.Proceeds { s with inferVars := s.inferVars ++ [v] } := by
  refine ⟨⟨⟨.fresh rfl, rfl⟩, fun i w found b member => ?_, fun _ => .inl⟩, fun j => ?_⟩
  · rw [List.getElem?_append] at found
    split at found
    · exact .inl ⟨w, found, member⟩
    · rw [List.mem_singleton.mp (List.mem_of_getElem? found), uppers] at member
      cases member
  · rw [default?, default?, List.getElem?_append]
    split
    · rfl
    · rename_i outside
      rw [List.getElem?_eq_none (Nat.le_of_not_lt outside)]
      cases found : [v][j - s.inferVars.length]? with
      | none => rfl
      | some w =>
        rw [List.mem_singleton.mp (List.mem_of_getElem? found)]
        exact fallback

end Session

section Deeds

variable {s s' : Session}

theorem Deed.proceeds {d : Deed} (may : Conduct.dutiful.May s d) : s.Proceeds (d.apply s) := by
  cases d with
  | log depth message values => exact (Action.exec_log depth message values s).2.proceeds
  | report d =>
    refine ⟨.same rfl rfl fun e member => ?_, fun _ => rfl⟩
    rcases List.mem_append.mp member with old | new
    · exact .inl old
    · rw [List.mem_singleton.mp new]
      exact .inr may
  | fresh env kind span =>
    let v : InferVar := { kind, span, home := env.home }
    exact (Session.proceeds_fresh v rfl rfl).trans (Action.exec_log _ _ _ _).2.proceeds
  | lower i b => exact Session.proceeds_record (.lower i b) nofun
  | upper i b =>
    refine Session.proceeds_record (.upper i b) fun j c same => ?_
    cases same
    exact may
  | edge i j => exact Session.proceeds_record (.edge i j) nofun
  | fact i p o => exact Session.proceeds_record (.fact i p o) nofun
  | exclude i p => exact Session.proceeds_record (.exclusion i p) nofun
  | fallback i d => exact may.elim
  | search branches =>
    simp only [apply, Action.startSearch]
    cases Search.start.spawn 0 branches <;> exact .same rfl rfl rfl
  | release i node =>
    rw [apply, Action.session_releaseBranch]
    cases (s.searches[i]?.getD .start).release node with
    | none => exact .refl s
    | some released => exact .same rfl rfl rfl
  | assign v t | name kind text span | conclude i | speculate | abandon n | keep e => exact .same rfl rfl rfl

theorem Conduct.Does.proceeds (does : Conduct.dutiful.Does s s') : s.Proceeds s' :=
  does.within .refl .trans fun _ _ => Deed.proceeds

theorem Deed.fallback_advances (i : InferIndex) (env : Env) (o : Obligation) (s : Session) :
    s.Advances ((fallback i (.numeric env o)).apply s) ∧
      (∀ j, s.default? j ≠ none → ((fallback i (.numeric env o)).apply s).default? j = s.default? j) ∧
      (∀ j d, ((fallback i (.numeric env o)).apply s).default? j = some d →
        s.default? j = some d ∨ j = i ∧ i < s.inferVars.length ∧ d = .numeric env o) ∧
      (i < s.inferVars.length → ((fallback i (.numeric env o)).apply s).default? i ≠ none) := by
  simp only [apply, Action.setFallback, Action.exec_bind, Action.exec_inferVar]
  cases found : s.inferVars[i]? with
  | none => exact ⟨.refl s, fun _ _ => rfl, fun _ _ => .inl, fun inside => absurd found (by simp [inside])⟩
  | some v =>
    have inside := (List.getElem?_eq_some_iff.mp found).1
    simp only [Option.elim]
    split
    · rename_i free
      let f (v : InferVar) : InferVar := { v with fallback := some (.numeric env o) }
      let s₁ : Session := { s with inferVars := s.inferVars.modify i f }
      have here : s₁.default? i = some (.numeric env o) := by
        simp [Session.default?, s₁, found, f]
      have others {j : InferIndex} (apart : i ≠ j) : s₁.default? j = s.default? j :=
        Session.default?_modify rfl fun same => absurd same apart
      have none : s.default? i = none := by
        simpa [Session.default?, found] using free
      refine ⟨.modify (i := i) (f := f) rfl rfl rfl (fun w _ => w.grows_fallback _) fun _ _ => .inl, fun j has => ?_,
        fun j d has => ?_, fun _ => ?_⟩
      · exact others fun same => has (same ▸ none)
      · by_cases same : i = j
        · subst same
          exact .inr ⟨rfl, inside, (Option.some.inj (here.symm.trans has)).symm⟩
        · exact .inl ((others same).symm.trans has)
      · intro missing
        cases here.symm.trans missing
    · rename_i default
      refine ⟨.refl s, fun _ _ => rfl, fun _ _ => .inl, fun _ missing => default ?_⟩
      simpa [Session.default?, found] using missing

theorem Deed.wakes (d : Deed) (s : Session) (ticket : Nat) (reason : Wake)
    (member : .wake ticket reason ∈ (d.apply s).signals) : .wake ticket reason ∈ s.signals ∨ reason = .changed := by
  obtain ⟨vs, stirs, summons⟩ := d.summons s
  rw [summons.signals, List.mem_append, List.mem_append] at member
  rcases member with (old | woken) | stirred
  · exact .inl old
  · obtain ⟨w, _, same⟩ := List.mem_map.mp woken
    cases same
    exact .inr rfl
  · obtain ⟨_, _, same⟩ := List.mem_map.mp stirred
    cases same

theorem Conduct.Does.wakes {C : Conduct} (does : C.Does s s') :
    ∀ ticket reason, .wake ticket reason ∈ s'.signals → .wake ticket reason ∈ s.signals ∨ reason = .changed :=
  does.within (R := fun s s' => ∀ ticket reason, .wake ticket reason ∈ s'.signals →
    .wake ticket reason ∈ s.signals ∨ reason = .changed) (fun _ _ _ => .inl)
    (fun first second ticket reason member => (second ticket reason member).elim (first ticket reason) .inr)
    fun d s _ => d.wakes s

end Deeds

end Ownership
