import Ownership.Proofs.Idling
import Ownership.Proofs.Schedules

namespace Ownership

/-- The result is as `P` says, and the numbers of what it binds are in hand. -/
def Holding {α : Type} (P : α → Prop) (binders : α → List Variable) (a : α) (G : Multiset Nat) : Prop :=
  P a ∧ Variable.ids (binders a) ≤ G

namespace Action

variable {α β : Type} {a : Action α} {P : α → Prop} {binders : α → List Variable}
variable {Q : α → Multiset Nat → Prop} {R : β → Multiset Nat → Prop} {F O O' : Multiset Nat}

/-- The action keeps no body, and if it ends well, it ends in the postcondition with some of the numbers
in hand or newly given out. -/
def Grants (a : Action α) (Q : α → Multiset Nat → Prop) (O : Multiset Nat) : Prop :=
  ∀ s : Session, s.nextSymbol ≤ (a.exec s).2.nextSymbol ∧ (a.exec s).2.outcome = s.outcome ∧
    ∀ x, (a.exec s).1 = .ok x → ∃ G ≤ O + s.numbers (a.exec s).2, Q x G

theorem Grants.mono (h : a.Grants Q O) (le : O ≤ O') : a.Grants Q O' := by
  intro s
  obtain ⟨later, outcome, ends⟩ := h s
  refine ⟨later, outcome, fun x ended => ?_⟩
  obtain ⟨G, fits, given⟩ := ends x ended
  exact ⟨G, fits.trans (add_le_add_left le _), given⟩

variable {f : α → Action β}

theorem Grants.bind (h : a.Grants Q O) (next : ∀ x G, Q x G → (f x).Grants R (G + F)) : (a >>= f).Grants R (O + F) := by
  intro s
  obtain ⟨later, outcome, ends⟩ := h s
  rw [exec_bind]
  cases found : a.exec s with
  | mk r s' =>
    simp only [found] at later outcome ends
    cases r with
    | error e => exact ⟨later, outcome, nofun⟩
    | ok x =>
      obtain ⟨G, fits, given⟩ := ends x rfl
      obtain ⟨later', outcome', ends'⟩ := next x G given s'
      refine ⟨later.trans later', outcome'.trans outcome, fun y ended => ?_⟩
      obtain ⟨G', fits', given'⟩ := ends' y ended
      refine ⟨G', fits'.trans ?_, given'⟩
      calc G + F + s'.numbers ((f x).exec s').2
          ≤ O + s.numbers s' + F + s'.numbers ((f x).exec s').2 := by gcongr
        _ = O + F + (s.numbers s' + s'.numbers ((f x).exec s').2) := by abel
        _ = O + F + s.numbers ((f x).exec s').2 := by rw [Session.numbers_add later later']

theorem Grants.bind_holding (h : a.Grants (Holding P binders) O)
    (next : ∀ x, P x → (f x).Grants R (Variable.ids (binders x) + F)) : (a >>= f).Grants R (O + F) :=
  h.bind fun x _ given => (next x given.1).mono (add_le_add_left given.2 F)

theorem Steady.bind_grants (steady : a.Steady) (next : ∀ x, (f x).Grants R O) : (a >>= f).Grants R O := by
  have first : a.Grants (fun _ _ => True) 0 := fun s =>
    ⟨(steady s).1.ge, (steady s).2, fun _ _ => ⟨0, Multiset.zero_le _, trivial⟩⟩
  rw [← zero_add O]
  exact first.bind fun x G _ => (next x).mono (Multiset.le_add_left O G)

theorem grants_pure {x : α} (holds : P x) (held : Variable.ids (binders x) ≤ O) :
    (pure x : Action α).Grants (Holding P binders) O := fun s =>
  ⟨le_rfl, rfl, fun y ended => by
    cases ended
    exact ⟨O, Multiset.le_add_right O _, holds, held⟩⟩

theorem grants_newVariable (kind : Kind) (name : Option String) (span : Span) :
    (newVariable kind name span).Grants (Holding (fun v => v.kind = kind ∧ v.span = span) fun v => [v]) 0 := by
  intro s
  have given : s.numbers ((newVariable kind name span).exec s).2 = {s.nextSymbol} :=
    Session.numbers_succ rfl
  refine ⟨Nat.le_succ _, rfl, fun v ended => ?_⟩
  cases ended
  refine ⟨_, le_rfl, ⟨rfl, rfl⟩, ?_⟩
  rw [given, zero_add]
  exact le_rfl

theorem Grants.tracks {K : Custody} (h : a.Grants Q O) : (Prog.perform a).Tracks K Q O := by
  intro s safe _ _
  obtain ⟨later, outcome, ends⟩ := h s
  refine ⟨later, fun e kept => safe e (outcome.symm.trans kept), ?_⟩
  change Prog.Tracks K (.done (a.exec s).1) Q _
  cases ended : (a.exec s).1 with
  | ok x => exact ends x ended
  | error e => trivial

end Action

namespace Finding

open Ownership.Core (Temporary)

variable {visible : Set Variable} {scope : Scope} {env : Env}

def Suits (scope : Scope) (e : Source.Expr) (f : Finding) : Prop :=
  f.ScopedIn scope.variables ∧ f.Follows scope.names e

abbrev Held (scope : Scope) (e : Source.Expr) : Finding → Multiset Nat → Prop := Holding (Suits scope e) binders

theorem suits_ofReport (scope : Scope) (e : Source.Expr) (r : Report) : (ofReport r).Suits scope e :=
  ⟨scopedIn_ofReport _ r, follows_ofReport _ e r⟩

theorem grants_temporary (e : Core.Expr) :
    (temporary e).Grants (Holding (fun t => t.initializer = e) Temporary.binders) (Variable.ids e.binders) := by
  rw [← zero_add (Variable.ids e.binders)]
  refine (Action.grants_newVariable .place none e.span).bind_holding fun v _ => ?_
  refine (Action.steady_setVariableTy v e.ty).bind_grants fun _ => Action.grants_pure rfl ?_
  simp [Temporary.binders]

/-- What a finding becomes as a value is scoped wherever the finding is, and does what the finding did. -/
structure BecomesValue (f : Finding) (l : Lifted Core.Expr) : Prop where
  scope : ∀ visible, f.ScopedIn visible → (ofExpr l.node l.temporaries).ScopedIn visible
  follows : ∀ names e, f.Follows names e →
    e.Yields names l.temporaries l.node.isWhole l.node.effects l.node.span

/-- What a finding becomes as a place: a value is stored, and what it does goes ahead. -/
structure BecomesPlace (f : Finding) (l : Lifted Core.PlaceExpr) : Prop where
  scope : ∀ visible, f.ScopedIn visible → (ofPlace l.node l.temporaries).ScopedIn visible
  follows : ∀ names (e : Source.Expr), f.Follows names e →
    ((e.schedule names).stored e.held).Covers l.temporaries l.node.isWhole [] ∧
      (l.node.isWhole → e.standing names = .value)

theorem held_of_broken {f g : Finding} (same : g.temporaries = f.temporaries) (broken : g.found.binders = []) :
    Variable.ids g.binders ≤ Variable.ids f.binders := by
  rw [binders, binders, same, broken, List.append_nil, Variable.ids_append]
  exact le_add_of_nonneg_right (Multiset.zero_le _)

theorem Follows.storedBroken {names : Naming} {e : Source.Expr} {f : Finding} (follows : f.Follows names e)
    (waits : (∃ self span fn generics, f.found = .method self span fn generics) ∨ ∃ r, f.found = .name r) :
    ((e.schedule names).stored e.held).Covers f.temporaries false [] ∧ (false → e.standing names = .value) :=
  have broken := follows.broken waits default
  ⟨broken.covers.stored fun whole => absurd whole Bool.false_ne_true, broken.value⟩

theorem grants_toPlace (env : Env) (f : Finding) : (f.toPlace env).Grants
    (Holding f.BecomesPlace fun l => (ofPlace l.node l.temporaries).binders) (Variable.ids f.binders) := by
  obtain ⟨ts, span, found⟩ := f
  cases found with
  | place p =>
    refine Action.grants_pure ⟨fun _ => id, fun names e follows => ⟨?_, follows.1.value⟩⟩ le_rfl
    refine follows.1.covers.stored fun whole => ?_
    rw [Source.Expr.held, follows.2 whole]
    rfl
  | value e =>
    have split : Variable.ids (binders ⟨ts, span, .value e⟩) =
        Variable.ids e.binders + Variable.ids (ts.flatMap Temporary.binders) := by
      rw [binders, Found.binders, Variable.ids_append, add_comm]
    rw [split]
    refine (grants_temporary e).bind_holding fun t same => Action.grants_pure ⟨fun visible h => ?_, ?_⟩ ?_
    · refine ⟨Temporary.allScopedIn_append.mpr ⟨h.1, ?_, trivial⟩, ?_⟩
      · rw [same]
        exact h.2
      · change t.var ∈ Temporary.after visible (ts ++ [t])
        rw [Temporary.after_append]
        exact Set.mem_insert _ _
    · subst same
      rintro names source ⟨yields, value⟩
      refine ⟨yields.covers.storedIn fun whole => ?_, fun _ => ?_⟩
      · rw [Source.Expr.held, value, yields.span whole]
        rfl
      · exact Source.Expr.standing_of_not_isPath value
    · simp [binders, Found.binders, ofPlace, add_comm]
  | name r =>
    exact (Action.steady_report env _).bind_grants fun _ => Action.grants_pure
      ⟨fun _ h => ⟨h.1, trivial⟩, fun _ _ follows => follows.storedBroken (.inr ⟨r, rfl⟩)⟩ le_rfl
  | method self idSpan fn generics =>
    exact (Action.steady_report env _).bind_grants fun _ => Action.grants_pure
      ⟨fun _ h => ⟨h.1, trivial⟩, fun _ _ follows =>
        follows.storedBroken (.inl ⟨self, idSpan, fn, generics, rfl⟩)⟩
      (held_of_broken rfl rfl)

theorem grants_toExpr (env : Env) (f : Finding) : (f.toExpr env).Grants
    (Holding f.BecomesValue fun l => (ofExpr l.node l.temporaries).binders) (Variable.ids f.binders) := by
  obtain ⟨ts, span, found⟩ := f
  cases found with
  | place p =>
    cases p with
    | var span ty v | field span ty owner f | error r =>
      exact Action.grants_pure ⟨fun _ => id, fun _ _ follows => ⟨follows.1.covers, follows.1.span, follows.1.value⟩⟩
        le_rfl
  | value e => exact Action.grants_pure ⟨fun _ => id, fun _ _ follows => follows.1⟩ le_rfl
  | name r =>
    exact (Action.steady_report env _).bind_grants fun _ => Action.grants_pure
      ⟨fun _ h => ⟨h.1, trivial⟩, fun _ _ follows => follows.broken (.inr ⟨r, rfl⟩) _⟩ le_rfl
  | method self idSpan fn generics =>
    exact (Action.steady_report env _).bind_grants fun _ => Action.grants_pure
      ⟨fun _ h => ⟨h.1, trivial⟩, fun _ _ follows =>
        follows.broken (.inl ⟨self, idSpan, fn, generics, rfl⟩) _⟩ (held_of_broken rfl rfl)

theorem grants_toClosedExpr (env : Env) (f : Finding) : (f.toClosedExpr env).Grants
    (Holding (fun c => (∀ visible, f.ScopedIn visible → c.ScopedIn visible) ∧ ∀ names (e : Source.Expr),
      f.Follows names e → Matches c.isWhole c.effects (e.schedule names).total ∧
        (c.isWhole → c.span = e.valueSpan)) Core.Expr.binders) (Variable.ids f.binders) := by
  rw [← add_zero (Variable.ids f.binders)]
  refine (grants_toExpr env f).bind_holding fun l becomes =>
    Action.grants_pure ⟨fun visible h => ?_, fun names e follows => ?_⟩ ?_
  · exact Core.Expr.scopedIn_enclose.mpr (becomes.scope visible h)
  · have yields := becomes.follows names e follows
    rw [Core.Expr.effects_enclose, Core.Expr.isWhole_enclose, Core.Expr.span_enclose]
    exact ⟨yields.covers.total, fun whole => yields.span (Bool.and_eq_true_iff.1 whole).2⟩
  · rw [Core.Expr.binders_enclose, add_zero]
    exact le_rfl

theorem grants_ofResolution {r : Resolution} {e : Source.Expr} (span : Span)
    (offered : ∀ v, r.entity.Offers v → v ∈ scope.variables) (quiet : e.schedule scope.names = {})
    (path : e.isPath) (same : e.standing scope.names = r.entity.standing) (spans : span = e.valueSpan) :
    (ofResolution r span).Grants (Held scope e) 0 := by
  have named (name : r.entity.standing ≠ .value) :
      (pure ⟨[], span, .name r⟩ : Action Finding).Grants (Held scope e) 0 :=
    Action.grants_pure ⟨⟨trivial, offered⟩, rfl, same, name⟩ le_rfl
  unfold ofResolution
  split
  · rename_i v isVar
    split
    · rename_i place
      refine (Action.steady_variableTy v).bind_grants fun ty => Action.grants_pure
        ⟨⟨trivial, offered v (isVar ▸ .var place)⟩, ⟨?_, fun _ => spans, fun _ => ?_⟩, fun _ => path⟩ le_rfl
      · change (e.schedule scope.names).Covers [] true []
        rw [quiet]
        exact .nothing
      · rw [same, isVar, Entity.standing, if_pos place]
    · rename_i other
      refine named fun value => ?_
      rw [isVar, Entity.standing, if_neg other] at value
      cases value
  · rename_i other
    refine named fun value => ?_
    cases entity : r.entity with
    | var v => exact other v entity
    | _ =>
      rw [entity] at value
      cases value

end Finding

theorem Action.grants_newVariables {α : Type} (span : α → Span) (as : List α) :
    (as.mapM fun a => newVariable .place none (span a) : Action (List Variable)).Grants
      (Holding (fun vs => vs.length = as.length) id) 0 := by
  induction as with
  | nil => exact grants_pure rfl le_rfl
  | cons a as ih =>
    rw [List.mapM_cons, ← add_zero 0]
    refine (grants_newVariable .place none (span a)).bind_holding fun v _ => ?_
    rw [add_comm]
    refine ih.bind_holding fun vs length => grants_pure (by simp [length]) ?_
    simp [add_comm]

namespace Lifted

open Ownership.Core (Temporary)

def finding (l : Lifted Core.Expr) : Finding := .ofExpr l.node l.temporaries

abbrev nodes (ls : List (Lifted Core.Expr)) : List Core.Expr := ls.map (·.node)

abbrev allTemporaries (ls : List (Lifted Core.Expr)) : List Temporary := ls.flatMap (·.temporaries)

variable {ls : List (Lifted Core.Expr)}

theorem toExprs_findings (env : Env) (ls : List (Lifted Core.Expr)) :
    Rules.toExprs env (ls.map finding) = pure (nodes ls, allTemporaries ls) := by
  induction ls with
  | nil => rfl
  | cons l ls ih =>
    have unfolded : Rules.toExprs env ((l :: ls).map finding) =
        Rules.toExprs env (ls.map finding) >>= fun r => pure (l.node :: r.1, l.temporaries ++ r.2) := rfl
    rw [unfolded, ih, pure_bind]
    rfl

theorem ids_findings (ls : List (Lifted Core.Expr)) : Variable.ids (ls.flatMap (·.finding.binders)) =
    Variable.ids ((allTemporaries ls).flatMap Temporary.binders) +
      Variable.ids ((nodes ls).flatMap Core.Expr.binders) := by
  induction ls with
  | nil => rfl
  | cons l ls ih =>
    simp only [finding, List.flatMap_cons, List.flatMap_append, List.map_cons, Variable.ids_append,
      Finding.ids_ofExpr] at ih ⊢
    rw [ih]
    abel

theorem around_findings {visible : Set Variable} (inScope : ∀ l ∈ ls, l.finding.ScopedIn visible) :
    Temporary.Around visible (allTemporaries ls) fun inner => ∀ e ∈ nodes ls, e.ScopedIn inner := by
  induction ls with
  | nil => exact ⟨trivial, by simp⟩
  | cons l ls ih =>
    obtain ⟨first, rest⟩ := List.forall_mem_cons.mp inScope
    refine (Temporary.Around.append first (ih rest) l.node.monotone_scopedIn fun _ _ subset h e member => ?_).imp
      fun _ _ h => List.forall_mem_cons.mpr h
    exact e.monotone_scopedIn subset (h e member)

theorem covers_arguments {names : Naming} {es : List Source.Expr}
    (follow : List.Forall₂ (fun e l => Argument.Follows names l (.expr e)) es ls) :
    (Source.Expr.schedules names Source.Expr.binding es).Covers (allTemporaries ls) ((nodes ls).all Core.Expr.isWhole)
      ((nodes ls).flatMap Core.Expr.bound) := by
  induction follow with
  | nil => exact .nothing
  | cons own _ ih =>
    refine (Schedule.Covers.bound own.covers fun whole => ?_).beside ih
    rw [own.span whole]
    rfl

end Lifted

def Argument.ScopedIn (visible : Set Variable) : Argument → Prop
  | .self e => e.ScopedIn visible
  | .expr _ => True

def Argument.binders : Argument → List Variable
  | .self e => e.binders
  | .expr _ => []

theorem Argument.binders_exprs (args : List Source.Expr) : (args.map Argument.expr).flatMap Argument.binders = [] := by
  simp [Argument.binders, List.flatMap_eq_nil_iff]

/-- What the check of an argument gives. -/
structure Argument.Becomes (env : Env) (a : Argument) (l : Lifted Core.Expr) : Prop where
  scope : ∀ visible, env.scope.variables ⊆ visible → a.ScopedIn visible → l.finding.ScopedIn visible
  follows : a.Follows env.scope.names l

/-- What the lookup of a member gives. -/
structure Finding.BecomesMember (span : Span) (owner f : Finding) : Prop where
  scope : ∀ visible, owner.ScopedIn visible → f.ScopedIn visible
  follows : ∀ names e name, owner.Follows names e → f.Follows names (.dot span e name)

theorem Argument.covers_call {env : Env} {receiver : Option Core.Expr} {es : List Source.Expr}
    {ls : List (Lifted Core.Expr)}
    (become : List.Forall₂ (Argument.Becomes env) (receiver.toList.map .self ++ es.map .expr) ls) :
    ∃ vs, Lifted.nodes ls = receiver.toList ++ vs ∧
      (Source.Expr.schedules env.scope.names Source.Expr.binding es).Covers (Lifted.allTemporaries ls)
        (vs.all Core.Expr.isWhole) (vs.flatMap Core.Expr.bound) := by
  have plain {ls : List (Lifted Core.Expr)} (become : List.Forall₂ (Argument.Becomes env) (es.map .expr) ls) :=
    Lifted.covers_arguments ((List.forall₂_map_left_iff.mp become).imp fun _ _ own => own.follows)
  cases receiver with
  | none => exact ⟨_, rfl, plain become⟩
  | some self =>
    cases become with
    | cons own rest =>
      -- A receiver is a value without temporaries.
      obtain rfl := own.follows
      exact ⟨_, rfl, plain rest⟩

/-- What is checked: a body, in the scope of variables whose numbers are below the first new one. -/
structure Checking where
  visible : Set Variable
  names : Naming
  first : Nat
  body : Source.Expr

def Goal.TakesIn (c : Checking) {s : Shape} : Goal s → Multiset Nat → Prop
  | .argument _ a _ _, I => Variable.ids a.binders ≤ I
  | .member _ owner _ _ _ _, I => Variable.ids owner.binders ≤ I
  | .body env e _, _ => env.scope.variables ⊆ c.visible ∧ env.scope.names = c.names ∧ e = c.body
  | _, _ => True

def Goal.GivesIn {s : Shape} : Goal s → s.Value → Multiset Nat → Prop
  | .expr env e, f, G => Finding.Held env.scope e f G
  | .argument env a _ _, f, G => ∃ l, f = l.finding ∧ Holding (a.Becomes env) (·.finding.binders) l G
  | .member _ owner _ _ _ span, f, G => Holding (owner.BecomesMember span) Finding.binders f G
  | _, _, _ => True

/-- The custody in which a body is kept if it is well scoped and does what is expected of it. -/
def Checking.custody (c : Checking) : Custody where
  first := c.first
  Keeps e := e.WellScoped c.visible c.first ∧ Matches e.isWhole e.effects (c.body.schedule c.names).total
  Takes _ g := g.TakesIn c
  Gives _ g := g.GivesIn

theorem Checking.lenient (c : Checking) : c.custody.Lenient := by
  intro s g light
  cases g with
  | body env e expected | argument env a v inputTy | member env owner ownerTy t name span => exact light.elim
  | _ => trivial

namespace Prog

variable {K : Custody} {α β : Type} {p : Prog α} {P : α → Prop} {binders : α → List Variable}
variable {R : β → Multiset Nat → Prop} {F O : Multiset Nat}

theorem Tracks.held {a : α} (holds : P a) (held : Variable.ids (binders a) ≤ O) :
    (pure a : Prog α).Tracks K (Holding P binders) O := ⟨O, le_rfl, holds, held⟩

variable {f : α → Prog β}

theorem Tracks.bind_holding (h : p.Tracks K (Holding P binders) O)
    (next : ∀ a, P a → (f a).Tracks K R (Variable.ids (binders a) + F)) : (p >>= f).Tracks K R (O + F) :=
  h.bind fun a _ given => (next a given.1).mono (add_le_add_left given.2 F)

theorem Tracks.bind_part (h : p.Tracks K (Holding P binders) 0)
    (next : ∀ a, P a → (f a).Tracks K R (Variable.ids (binders a) + O)) : (p >>= f).Tracks K R O := by
  rw [← zero_add O]
  exact h.bind_holding next

theorem Idle.before {c : Checking} (idle : p.Idle) (next : ∀ a, (f a).Tracks c.custody R O) :
    (p >>= f).Tracks c.custody R O := idle.bind_tracks c.lenient next

theorem Tracks.gathered {s : Shape} {goals : List (Goal s)} (taken : Shared (fun g => K.Takes g) goals O) :
    (gathered goals).Tracks K (fun vs G => K.GivesAll goals vs G) O :=
  fun _ => ⟨O, 0, (add_zero O).le, taken, fun _ G given => ⟨G, (add_zero G).ge, given⟩, fun _ _ => trivial⟩

theorem Tracks.lift_bind {x : Except Violation α}
    (next : ∀ a, x = .ok a → (f a).Tracks K R O) : (liftM x >>= f : Prog β).Tracks K R O := by
  cases x with
  | ok a => exact next a rfl
  | error v => trivial

theorem Tracks.steady_bind {a : Action α} (steady : a.Steady)
    (next : ∀ x, (∃ s, (a.exec s).1 = .ok x) → (f x).Tracks K R O) : (perform a >>= f).Tracks K R O := by
  intro s safe _ _
  obtain ⟨numbers, outcome⟩ := steady s
  refine ⟨numbers.ge, fun e kept => safe e (outcome.symm.trans kept), ?_⟩
  change ((done (a.exec s).1).andThen _).Tracks K R _
  cases ended : (a.exec s).1 with
  | ok x => exact (next x ⟨s, ended⟩).mono (Multiset.le_add_right O _)
  | error e => trivial

end Prog

end Ownership
