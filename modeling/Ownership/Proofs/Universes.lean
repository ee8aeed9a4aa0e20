import Ownership.Proofs.BoundWalks
import Ownership.Proofs.Sessions

namespace Ownership

variable {β : Type}

open Relation (ReflTransGen)

theorem InferVar.bound_of_stance {v : InferVar} {k : Kind} {t : Term} (stands : v.stance k = some t) :
    ∃ b ∈ v.bounds, b.term = t := by
  cases k with
  | type =>
    obtain ⟨b, chosen, rfl⟩ := Option.map_eq_some_iff.mp stands
    refine ⟨b, ?_, rfl⟩
    cases found : v.lower with
    | some b' =>
      rw [found] at chosen
      cases chosen
      exact mem_bounds_of_lower found
    | none =>
      rw [found] at chosen
      exact List.mem_append_right _ (List.mem_of_mem_head? chosen)
  | perm =>
    obtain ⟨b, found, rfl⟩ := Option.map_eq_some_iff.mp stands
    exact ⟨b, mem_bounds_of_lower found, rfl⟩
  | place => cases stands

namespace Session

def StandsOn (s : Session) (i j : InferIndex) : Prop :=
  ∃ v k t, s.inferVars[i]? = some v ∧ v.stance k = some t ∧ j ∈ t.infers

def ResolvesThrough (s : Session) : InferIndex → InferIndex → Prop := ReflTransGen s.StandsOn

def Shows (s : Session) (i : InferIndex) (u : Variable) : Prop :=
  ∃ j v, s.ResolvesThrough i j ∧ s.inferVars[j]? = some v ∧ v.home.canSee (s.universeOf u) = true

def ResolvesTo (s : Session) (env : Env) (i : InferIndex) (u : Variable) : Prop :=
  (∃ t, (((Ty.infer i).resolve env).exec s).1 = .ok t ∧ u ∈ t.occurrences) ∨
    ∃ p, (((Perm.infer i).resolve env).exec s).1 = .ok p ∧ u ∈ p.occurrences

end Session

def Regime.levelled (level : Variable → Universe) : Regime where
  placeArguments := True
  awaited _ := False
  barred _ := False
  guarded _ := False
  level v := some (level v)
  places_barred := Variable.place_of_none

section Resolving

variable {level : Variable → Universe} {s : Session}

theorem Regime.Sound.sees (sound : (Regime.levelled level).Sound s) {i : InferIndex} {v : InferVar} {b : Bound}
    (found : s.inferVars[i]? = some v) (bound : b ∈ v.bounds) {u : Variable} (occurs : u ∈ b.term.occurrences) :
    v.home.canSee (s.universeOf u) = true := by
  obtain ⟨keeps, seen⟩ := (sound.vars i v found).bounds b bound
  have settled : s.universeOf u = level u := keeps.shown_of_mem (fun _ => And.left) occurs _ rfl
  rw [settled]
  exact seen u occurs _ rfl

def Session.outlook (s : Session) (i : InferIndex) : Lexicon where
  infer _ j := s.ResolvesThrough i j
  var := s.Shows i
  places := True

theorem Regime.Sound.grounded (sound : (Regime.levelled level).Sound s) (i : InferIndex) :
    Resolving.Grounded (s.outlook i) s.inferVars where
  shown := rfl
  uniform _ _ _ := id
  stands k j v found t stands through := by
    obtain ⟨b, bound, rfl⟩ := InferVar.bound_of_stance stands
    have shows (u : Variable) (occurs : u ∈ b.term.occurrences) : s.Shows i u :=
      ⟨j, v, through, found, sound.sees found bound occurs⟩
    refine b.term.in_all.imp ⟨fun u occurs _ => ?_, fun u occurs _ => ?_, fun l mentioned _ _ => ?_, id⟩
    · exact shows u occurs
    · exact shows u occurs
    · exact through.tail ⟨v, k, b.term, found, stands, mentioned⟩

end Resolving

namespace Stage

/-- What an inference variable is resolved to mentions a universal variable only if some variable that it
is resolved through can see it; so it mentions only what it can see itself, when it can see the universe
of every variable that it is resolved through. -/
theorem resolved_mentions_seen {level : Variable → Universe} {s : Session} (begins : s.Begins (.levelled level))
    {σ : Stage β} (reached : ReflTransGen (Proceeds (.levelled level)) ⟨{ session := s }, []⟩ σ) {env : Env}
    {i : InferIndex} {u : Variable} (mentioned : σ.machine.session.ResolvesTo env i u) :
    σ.machine.session.Shows i u ∧
      ∀ v, σ.machine.session.inferVars[i]? = some v →
        (∀ j w, σ.machine.session.ResolvesThrough i j → σ.machine.session.inferVars[j]? = some w →
          v.home.canSee w.home = true) →
        v.home.canSee (σ.machine.session.universeOf u) = true := by
  obtain ⟨under, _⟩ := (under_idle [] begins.sound).run reached
  have grounded := under.sound.grounded i
  have shows : σ.machine.session.Shows i u := by
    rcases mentioned with ⟨t, resolved, occurs⟩ | ⟨p, resolved, occurs⟩
    · have ends := Ty.ends_resolve grounded env (t := .infer i) .refl
      rw [resolved] at ends
      exact Ty.In.shown_of_mem (fun _ => id) ends occurs
    · have ends := Perm.ends_resolve grounded env (p := .infer i) .refl
      rw [resolved] at ends
      exact Perm.In.shown_of_mem (fun _ => id) ends occurs
  refine ⟨shows, fun v _ sees => ?_⟩
  obtain ⟨j, w, through, found, visible⟩ := shows
  have further := sees j w through found
  rw [Universe.canSee_iff] at visible further ⊢
  exact visible.trans further

section Escapes

def parameter : Variable := ⟨0, .type, some "X", default⟩

def levels (v : Variable) : Universe := if v = parameter then Universe.root.next else .root

theorem begins_levels : (Session.blank 1).Begins (.levelled levels) := by
  refine Session.begins_blank fun v new => ⟨fun U known => ?_, nofun⟩
  have other : v ≠ parameter := by
    rintro rfl
    exact absurd new (by decide)
  cases known
  rw [levels, if_neg other]
  rfl

def inner : Env := (Env.root []).assuming []

/-- `?0` is made in the environment, the parameter is opened, and `?1` is made where it is visible. -/
def made (outer : Env) : Session :=
  let s := ((Action.freshInferVar outer .type default).exec (.blank 1)).2
  let s := ((Action.openUniversally (.root []) [parameter] []).exec s).2
  ((Action.freshInferVar inner .type default).exec s).2

def subtype (lower upper : Ty) : Goal .unit :=
  .subTys inner lower upper { requirement := .subtype default (.ty lower) (.ty upper) }

/-- `X <: ?1` and `Future[?1] <: ?0` are required. -/
def bounded (outer : Env) : Stage Unit :=
  let m : Machine Unit := { session := made outer }
  let m := m.spawn "" (Rules.answer .unit (subtype (.var parameter) (.infer 1)))
  let m := m.spawn "" (Rules.answer .unit (subtype (.future (.ty (.infer 1))) (.infer 0)))
  (⟨m, []⟩ : Stage Unit).run Rules.answer 100

theorem reached_bounded (outer : Env) :
    ReflTransGen (Proceeds (.levelled levels)) ⟨{ session := .blank 1 }, []⟩ (bounded outer) := by
  let s₁ := ((Action.freshInferVar outer .type default).exec (.blank 1)).2
  let s₂ := ((Action.openUniversally (.root []) [parameter] []).exec s₁).2
  have first : Proceeds (.levelled levels) (⟨{ session := .blank 1 }, []⟩ : Stage Unit) ⟨{ session := s₁ }, []⟩ :=
    .prepare (.fresh outer .type default)
  have opened : Proceeds (.levelled levels) (⟨{ session := s₁ }, []⟩ : Stage Unit) ⟨{ session := s₂ }, []⟩ := by
    refine .prepare (.opens (.root []) [] fun v member U known => ?_)
    cases known
    rw [List.mem_singleton.mp member]
    rfl
  have second : Proceeds (.levelled levels) (⟨{ session := s₂ }, []⟩ : Stage Unit) ⟨{ session := made outer }, []⟩ :=
    .prepare (.fresh inner .type default)
  have parameterFits : (subtype (.var parameter) (.infer 1)).Fits (.levelled levels) (made outer) :=
    ⟨⟨fun U known => by cases known; rfl, nofun⟩, _, rfl, rfl⟩
  have futureFits : (subtype (.future (.ty (.infer 1))) (.infer 0)).Fits (.levelled levels) (made outer) :=
    ⟨⟨⟨_, rfl, rfl⟩, trivial⟩, _, rfl, rfl⟩
  exact .head first (.head opened (.head second (.head (.call "" parameterFits) (.head (.call "" futureFits)
    (proceeds_of_turns (turns_run Rules.answer 100 _))))))

theorem resolvesTo_of_occurrences {s : Session} {env : Env} {i : InferIndex} {u : Variable}
    (resolved : (((Ty.infer i).resolve env).exec s).1.toOption.map Ty.occurrences = some [u]) :
    s.ResolvesTo env i u := by
  obtain ⟨t, ended, occurs⟩ := Option.map_eq_some_iff.mp resolved
  refine .inl ⟨t, ?_, occurs ▸ List.mem_cons_self⟩
  rcases outcome : (((Ty.infer i).resolve env).exec s).1 with e | t'
  · rw [outcome] at ended
    cases ended
  · rw [outcome] at ended
    cases ended
    rfl

theorem resolved_mentions_seen_inner :
    (bounded inner).machine.session.Shows 0 parameter ∧
      inner.home.canSee ((bounded inner).machine.session.universeOf parameter) = true := by
  have mentioned : (bounded inner).machine.session.ResolvesTo (.root []) 0 parameter :=
    resolvesTo_of_occurrences (by decide +kernel)
  have homes : (bounded inner).machine.session.inferVars.map InferVar.home = [inner.home, inner.home] := by
    decide +kernel
  have home {j : InferIndex} {w : InferVar} (found : (bounded inner).machine.session.inferVars[j]? = some w) :
      w.home = inner.home := by
    have listed : w.home ∈ (bounded inner).machine.session.inferVars.map InferVar.home :=
      List.mem_map_of_mem (List.mem_of_getElem? found)
    rw [homes] at listed
    simpa using listed
  obtain ⟨v, found⟩ : ∃ v, (bounded inner).machine.session.inferVars[0]? = some v :=
    Option.isSome_iff_exists.mp (by decide +kernel)
  obtain ⟨shows, sees⟩ := resolved_mentions_seen begins_levels (reached_bounded inner) mentioned
  refine ⟨shows, home found ▸ sees v found fun j w _ there => ?_⟩
  rw [home found, home there]
  decide

/-- `?0` is resolved to `Future[X]` without an error, although it cannot see `X`. -/
theorem resolved_escapes : (bounded (.root [])).machine.running = 0 ∧
    (bounded (.root [])).machine.session.diagnostics.isEmpty = true ∧
    (bounded (.root [])).machine.session.ResolvesTo (.root []) 0 parameter ∧
    ((bounded (.root [])).machine.session.inferVars[0]?.map fun v =>
      v.home.canSee ((bounded (.root [])).machine.session.universeOf parameter)) = some false :=
  ⟨by decide +kernel, by decide +kernel, resolvesTo_of_occurrences (by decide +kernel), by decide +kernel⟩

end Escapes

end Stage

end Ownership
