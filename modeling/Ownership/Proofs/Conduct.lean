import Mathlib.Logic.Relation
import Ownership.Proofs.Requests

namespace Ownership

open Relation (ReflTransGen)

/-- A change that a step makes to a session. -/
inductive Deed where
  | log (depth : Nat) (message : String) (values : List String)
  | report (d : Diagnostic)
  | fresh (env : Env) (kind : Kind) (span : Span)
  | lower (i : InferIndex) (b : Bound)
  | upper (i : InferIndex) (b : Bound)
  | edge (lower upper : InferIndex)
  | fact (i : InferIndex) (p : Predicate) (o : Obligation)
  | exclude (i : InferIndex) (p : Predicate)
  | fallback (i : InferIndex) (d : Default)
  | assign (v : Variable) (t : Ty)
  | name (kind : Kind) (text : Option String) (span : Span)
  | search (branches : Nat)
  | conclude (search : Nat)
  | release (search node : Nat)
  | speculate
  | abandon (speculation : Nat)
  | keep (e : Core.Expr)

def Deed.apply : Deed → Session → Session
  | log depth message values, s => ((Action.log depth message values).exec s).2
  | report d, s => ((Action.recordDiagnostic d).exec s).2
  | fresh env kind span, s => ((Action.freshInferVar env kind span).exec s).2
  | lower i b, s => ((Action.setLowerBound i b).exec s).2
  | upper i b, s => ((Action.addUpperBound i b).exec s).2
  | edge i j, s => ((Action.addEdge i j).exec s).2
  | fact i p o, s => ((Action.addFact i p o).exec s).2
  | exclude i p, s => ((Action.exclude i p).exec s).2
  | fallback i d, s => ((Action.setFallback i d).exec s).2
  | assign v t, s => ((Action.setVariableTy v t).exec s).2
  | .name kind text span, s => ((Action.newVariable kind text span).exec s).2
  | search branches, s => ((Action.startSearch branches).exec s).2
  | conclude i, s => ((Action.concludeSearch i).exec s).2
  | release i node, s => ((Action.releaseBranch i node).exec s).2
  | speculate, s => (Action.startSpeculation.exec s).2
  | abandon n, s => ((Action.abandon n).exec s).2
  | keep e, s => { s with outcome := some e }

structure Conduct where
  May : Session → Deed → Prop
  Calls : ⦃s : Shape⦄ → Goal s → Prop
  Asks : ⦃s : Shape⦄ → Goal s → Prop
  Posts : Goal .unit → Prop
  Contests : Prop

variable {C : Conduct}

def Conduct.Does (C : Conduct) : Session → Session → Prop :=
  ReflTransGen fun s s' => ∃ d, C.May s d ∧ s' = d.apply s

theorem Conduct.does_apply {d : Deed} {s : Session} (may : C.May s d) : C.Does s (d.apply s) :=
  .single ⟨d, may, rfl⟩

theorem Conduct.Does.within {R : Session → Session → Prop} {s s' : Session} (does : C.Does s s') (refl : ∀ s, R s s)
    (trans : ∀ {s s' s''}, R s s' → R s' s'' → R s s'') (each : ∀ d s, C.May s d → R s (d.apply s)) : R s s' := by
  induction does with
  | refl => exact refl s
  | tail _ step ih =>
    obtain ⟨d, may, rfl⟩ := step
    exact trans ih (each d _ may)

namespace Prog

variable {α β : Type} {known : Nat}

/-- The program keeps to the conduct in every session that has the known number of variables. -/
def KeepsFrom (C : Conduct) : Nat → Prog α → Prop
  | _, .done _ => True
  | known, .update f k => ∀ s, known ≤ s.inferVars.length →
    C.Does s (f s) ∧ (k s).KeepsFrom C s.inferVars.length
  | known, .call g k => C.Calls g ∧ ∀ r, (k r).KeepsFrom C known
  | known, .rest _ k => k.KeepsFrom C known
  | known, .mark k => ∀ n, (k n).KeepsFrom C known
  | known, .note _ _ k => k.KeepsFrom C known
  | known, .park i _ _ k => i < known ∧ ∀ w, (k w).KeepsFrom C known
  | known, .race _ _ tests k => (∀ g ∈ tests, C.Asks g) ∧ ∀ r, (k r).KeepsFrom C known
  | known, .gather groups k => (∀ group ∈ groups, ∀ s, ∀ g ∈ group s, C.Asks g) ∧
    ∀ r, (k r).KeepsFrom C known
  | known, .contest _ tests k => (C.Contests ∧ ∀ g ∈ tests, C.Asks g) ∧ ∀ r, (k r).KeepsFrom C known
  | known, .spawn _ g k => C.Posts g ∧ k.KeepsFrom C known

theorem KeepsFrom.mono {p : Prog α} {more : Nat} (h : p.KeepsFrom C known) (le : known ≤ more) :
    p.KeepsFrom C more := by
  induction p with
  | done r => trivial
  | update f k => exact fun s enough => h s (Nat.le_trans le enough)
  | call g k ih => exact ⟨h.1, fun r => ih r (h.2 r)⟩
  | rest turns k ih | note g r k ih => exact ih h
  | mark k ih => exact fun n => ih n (h n)
  | park i speculation enough k ih => exact ⟨Nat.lt_of_lt_of_le h.1 le, fun w => ih w (h.2 w)⟩
  | race decisive passed tests k ih | gather groups k ih | contest search tests k ih =>
    exact ⟨h.1, fun r => ih r (h.2 r)⟩
  | spawn description g k ih => exact ⟨h.1, ih h.2⟩

theorem KeepsFrom.weaken {C' : Conduct} {p : Prog α} (h : p.KeepsFrom C known) (may : ∀ s d, C.May s d → C'.May s d)
    (calls : ∀ ⦃s⦄ (g : Goal s), C.Calls g → C'.Calls g) (asks : ∀ ⦃s⦄ (g : Goal s), C.Asks g → C'.Asks g)
    (posts : ∀ g, C.Posts g → C'.Posts g) (contests : C.Contests → C'.Contests) : p.KeepsFrom C' known := by
  induction p generalizing known with
  | done r => trivial
  | update f k ih =>
    intro s enough
    refine ⟨ReflTransGen.mono ?_ s _ (h s enough).1, ih s (h s enough).2⟩
    rintro _ _ ⟨d, allowed, rfl⟩
    exact ⟨d, may _ d allowed, rfl⟩
  | call g k ih => exact ⟨calls g h.1, fun r => ih r (h.2 r)⟩
  | rest turns k ih | note g r k ih => exact ih h
  | mark k ih => exact fun n => ih n (h n)
  | park i speculation enough k ih => exact ⟨h.1, fun w => ih w (h.2 w)⟩
  | race decisive passed tests k ih => exact ⟨fun g member => asks g (h.1 g member), fun r => ih r (h.2 r)⟩
  | gather groups k ih =>
    exact ⟨fun group member s g asked => asks g (h.1 group member s g asked), fun r => ih r (h.2 r)⟩
  | contest search tests k ih =>
    exact ⟨⟨contests h.1.1, fun g member => asks g (h.1.2 g member)⟩, fun r => ih r (h.2 r)⟩
  | spawn description g k ih => exact ⟨posts g h.1, ih h.2⟩

theorem KeepsFrom.andThen {p : Prog α} {f : Except Failure α → Prog β} (first : p.KeepsFrom C known)
    (next : ∀ r more, known ≤ more → (f r).KeepsFrom C more) : (p.andThen f).KeepsFrom C known := by
  induction p generalizing known with
  | done r => exact next r known (Nat.le_refl _)
  | update g k ih =>
    intro s enough
    exact ⟨(first s enough).1, ih s (first s enough).2 fun r more le => next r more (Nat.le_trans enough le)⟩
  | call g k ih => exact ⟨first.1, fun r => ih r (first.2 r) next⟩
  | rest turns k ih | note g r k ih => exact ih first next
  | mark k ih => exact fun n => ih n (first n) next
  | park i speculation enough k ih => exact ⟨first.1, fun w => ih w (first.2 w) next⟩
  | race decisive passed tests k ih | gather groups k ih | contest search tests k ih =>
    exact ⟨first.1, fun r => ih r (first.2 r) next⟩
  | spawn description g k ih => exact ⟨first.1, ih first.2 next⟩

def Keeps (C : Conduct) (p : Prog α) : Prop := ∀ known, p.KeepsFrom C known

theorem Keeps.noted {s : Shape} {p : Prog s.Value} (h : p.Keeps C) (g : Goal s) : (p.noted g).Keeps C :=
  fun known => (h known).andThen fun _ _ _ => trivial

end Prog

/-- A sort of programs that keep to a conduct, closed under the ways in which rules put programs together. -/
structure Manner extends Conduct where
  Has : {α : Type} → Prog α → Prop
  has_done : ∀ {α : Type} (r : Except Failure α), Has (.done r)
  has_andThen : ∀ {α β : Type} {p : Prog α} {f : Except Failure α → Prog β}, Has p → (∀ r, Has (f r)) →
    Has (p.andThen f)
  has_rest : ∀ {α : Type} {p : Prog α} (turns : Nat), Has p → Has (.rest turns p)
  has_mark : ∀ {α : Type} {k : Nat → Prog α}, (∀ n, Has (k n)) → Has (.mark k)
  has_perform : ∀ {α : Type} {a : Action α}, a.Within toConduct.Does → Has (.perform a)
  has_wait : ∀ {α : Type} {i : InferIndex} {f : InferVar → Prog α}, (∀ v, Has (f v) ∨ ∃ speculation enough k,
    f v = .park i speculation enough k ∧ ∀ wake, Has (k wake)) → Has (.perform (Action.inferVar i) >>= f)
  has_call : ∀ {s : Shape} {g : Goal s}, Calls g → Has (.call g .done)
  has_race : ∀ {tests : List (Goal .truth)} (decisive passed : Bool), (∀ g ∈ tests, Asks g) →
    Has (.race decisive passed tests .done)
  has_gather : ∀ {s : Shape} {groups : List (Session → List (Goal s))},
    (∀ group ∈ groups, ∀ s, ∀ g ∈ group s, Asks g) → Has (.gather groups .done)
  has_contest : ∀ {tests : List (Goal .truth)} (search : Nat), Contests → tests ≠ [] → (∀ g ∈ tests, Asks g) →
    Has (.contest search tests .done)
  has_spawn : ∀ {g : Goal .unit} (description : String), Posts g → Has (.spawn description g (pure ()))

def Conduct.keeping (C : Conduct) : Manner where
  toConduct := C
  Has p := p.Keeps C
  has_done _ _ := trivial
  has_andThen first next known := (first known).andThen fun r more _ => next r more
  has_rest _ h := h
  has_mark h known n := h n known
  has_perform within _ s _ := ⟨within s, trivial⟩
  has_wait {_ i f} h _ s _ := by
    change C.Does s ((Action.inferVar i).exec s).2 ∧
      (Prog.resume f ((Action.inferVar i).exec s).1).KeepsFrom C s.inferVars.length
    rw [Action.exec_inferVar]
    refine ⟨.refl, ?_⟩
    cases found : s.inferVars[i]? with
    | none => trivial
    | some v =>
      rcases h v with has | ⟨_, _, k, parks, has⟩
      · exact has _
      · change (f v).KeepsFrom C _
        rw [parks]
        exact ⟨(List.getElem?_eq_some_iff.mp found).1, fun wake => has wake _⟩
  has_call calls _ := ⟨calls, fun _ => trivial⟩
  has_race _ _ asks _ := ⟨asks, fun _ => trivial⟩
  has_gather asks _ := ⟨asks, fun _ => trivial⟩
  has_contest _ contests _ asks _ := ⟨⟨contests, asks⟩, fun _ => trivial⟩
  has_spawn _ posts _ := ⟨posts, trivial⟩

namespace Prog

variable {C : Manner} {α β : Type} {p : Prog α} {goals : List (Goal .unit)}

def Heeds (C : Manner) (p : Prog α) : Prop := C.Has p

theorem heeds_done (r : Except Failure α) : (done r).Heeds C := C.has_done r

theorem heeds_pure (a : α) : (pure a : Prog α).Heeds C := heeds_done _

theorem heeds_throw (e : Failure) : (throw e : Prog α).Heeds C := heeds_done _

theorem heeds_raise (r : Report) : (raise r : Prog α).Heeds C := heeds_done _

theorem heeds_violate (v : Violation) : (violate v : Prog α).Heeds C := heeds_done _

theorem Heeds.andThen {f : Except Failure α → Prog β} (first : p.Heeds C) (next : ∀ r, (f r).Heeds C) :
    (p.andThen f).Heeds C := C.has_andThen first next

theorem Heeds.bind {f : α → Prog β} (first : p.Heeds C) (next : ∀ a, (f a).Heeds C) : (p >>= f).Heeds C := by
  refine first.andThen fun r => ?_
  cases r with
  | ok a => exact next a
  | error e => exact heeds_done _

theorem Heeds.awaited (h : p.Heeds C) : p.awaited.Heeds C := h.andThen fun r => C.has_rest 1 (C.has_done r)

theorem Heeds.relayed (h : p.Heeds C) : p.relayed.Heeds C :=
  C.has_mark fun _ => h.andThen fun r => C.has_mark fun _ => C.has_rest _ (C.has_done r)

theorem Heeds.forM {f : β → Prog Unit} (each : ∀ b, (f b).Heeds C) (bs : List β) : (bs.forM f).Heeds C := by
  induction bs with
  | nil => exact heeds_pure _
  | cons b bs ih => exact (each b).bind fun _ => ih

theorem heeds_perform {a : Action α} (within : a.Within C.Does) : (perform a).Heeds C := C.has_perform within

theorem heeds_lift (x : Except Violation α) : (liftM x : Prog α).Heeds C := by
  cases x with
  | ok a => exact heeds_pure a
  | error v => exact heeds_throw _

section Goals

variable {s : Shape} {g : Goal s}

theorem heeds_call {k : Except Failure s.Value → Prog α} (calls : C.Calls g) (next : ∀ r, (k r).Heeds C) :
    (call g k).Heeds C := C.has_andThen (C.has_call calls) next

theorem heeds_ask (calls : C.Calls g) : (ask g).Heeds C := Heeds.awaited (C.has_call calls)

theorem heeds_relay (calls : C.Calls g) : (relay g).Heeds C := Heeds.relayed (C.has_call calls)

theorem heeds_post (env : Env) (description : String) {g : Env → Goal .unit} (posts : C.Posts (g env.fork)) :
    (post env description g).Heeds C := C.has_spawn _ posts

end Goals

theorem heeds_raced {tests : List (Goal .truth)} (asks : ∀ g ∈ tests, C.Asks g) (decisive : Bool) :
    (raced decisive tests).Heeds C := by
  unfold raced
  split
  · exact C.has_rest 2 (heeds_pure _)
  · exact C.has_race decisive true asks

theorem heeds_raced_map {f : β → Goal .truth} {bs : List β} {decisive : Bool} (asks : ∀ b, C.Asks (f b)) :
    (raced decisive (bs.map f)).Heeds C := heeds_raced (List.forall_mem_map.mpr fun b _ => asks b) decisive

theorem asks_pair {s : Shape} {g h : Goal s} (first : C.Asks g) (second : C.Asks h) : ∀ k ∈ [g, h], C.Asks k := by
  simp [first, second]

theorem heeds_eachGroup {groups : List (Session → List (Goal .unit))}
    (asks : ∀ group ∈ groups, ∀ s, ∀ g ∈ group s, C.Asks g) : (eachGroup groups).Heeds C :=
  Heeds.bind (C.has_gather asks) fun _ => heeds_pure _

theorem heeds_each (asks : ∀ g ∈ goals, C.Asks g) : (each goals).Heeds C :=
  heeds_eachGroup (by simpa using fun _ => asks)

theorem heeds_each_pair {g h : Goal .unit} (first : C.Asks g) (second : C.Asks h) : (each [g, h]).Heeds C :=
  heeds_each (asks_pair first second)

theorem heeds_each_map {f : β → Goal .unit} {bs : List β} (asks : ∀ b, C.Asks (f b)) :
    (each (bs.map f)).Heeds C := heeds_each (List.forall_mem_map.mpr fun b _ => asks b)

theorem heeds_eachBesides (asks : ∀ g ∈ goals, C.Asks g) : (eachBesides goals).Heeds C := by
  unfold eachBesides
  split
  · exact C.has_rest 2 (heeds_pure _)
  · exact heeds_each asks

end Prog

end Ownership
