import Ownership.Proofs.RegimeAnnotations

namespace Ownership

namespace Action

variable {R : Regime} {s : Session} (sound : R.Sound s)
include sound

theorem obeys_freshInferVar (env : Env) (kind : Kind) (span : Span) :
    (freshInferVar env kind span).Obeys R (fun i s' => (R.lexicon s').infer kind i) s := by
  have fresh : R.Leads s { s with inferVars := s.inferVars ++ [{ kind, span, home := env.home }] } := by
    refine sound.regrow (.fresh rfl) rfl rfl rfl rfl (sound.mirrored.fresh rfl rfl rfl) fun later k u found => ?_
    rcases Nat.lt_or_ge k s.inferVars.length with inside | outside
    · rw [List.getElem?_append_left inside] at found
      exact (sound.vars k u found).later later
    · rw [List.getElem?_append_right outside] at found
      have only := List.mem_singleton.mp (List.mem_of_getElem? found)
      subst only
      exact ⟨InferVar.coherent_fresh kind span env.home, nofun, nofun⟩
  have infers : (R.lexicon { s with inferVars := s.inferVars ++ [{ kind, span, home := env.home }] }).infer kind
      s.inferVars.length := ⟨_, List.getElem?_concat_length, rfl⟩
  have logged := obeys_log fresh.2 0 s!"fresh {kind.name} inference variable"
    [toString s.inferVars.length, env.home.render]
  exact ⟨fresh.trans logged.1, logged.1.1.within.infer kind _ infers⟩

theorem obeys_freshTy (env : Env) (span : Span) : (freshTy env span).Obeys R (fun t s' => t.In (R.lexicon s')) s :=
  (obeys_freshInferVar sound env .type span).bind fun _ _ leads given => obeys_pure leads.2 given

theorem obeys_freshTerm (env : Env) (kind : Kind) (span : Span) :
    (freshTerm env kind span).Obeys R (fun t s' => t.Fills (R.spoken True s')) s :=
  (obeys_freshInferVar sound env kind span).bind fun _ _ leads given =>
    obeys_pure leads.2 (Term.fills_ofInfer given)

theorem obeys_mapM {α β : Type} {P : β → Session → Prop} {f : α → Action β}
    (lasts : ∀ {b s s'}, P b s → R.Later s s' → P b s')
    (each : ∀ a {s'}, R.Sound s' → (f a).Obeys R P s') (as : List α) :
    (as.mapM f).Obeys R (fun bs s' => bs.length = as.length ∧ ∀ b ∈ bs, P b s') s := by
  induction as generalizing s with
  | nil => exact obeys_pure sound ⟨rfl, nofun⟩
  | cons a as ih =>
    rw [List.mapM_cons]
    refine (each a sound).bind fun b s' leads first => (ih leads.2).bind fun bs s'' leads' rest => ?_
    exact obeys_pure leads'.2
      ⟨congrArg Nat.succ rest.1, List.forall_mem_cons.mpr ⟨lasts first leads'.1, rest.2⟩⟩

theorem obeys_freshFor (env : Env) (span : Span) (vs : List Variable) :
    (freshFor env span vs).Obeys R (fun ts s' => ∀ t ∈ ts, t.Fills (R.spoken True s')) s :=
  (obeys_mapM sound (fun given later => given.mono (later.within_spoken True))
    (fun v _ sound => obeys_freshTerm sound env v.kind span) vs).imp fun _ _ _ given => given.2

theorem obeys_newVariable (kind : Kind) (name : Option String) (span : Span) :
    (newVariable kind name span).Obeys R (fun v s' => R.Ready s' v) s := by
  have more : R.Later s { s with nextSymbol := s.nextSymbol + 1 } := ⟨.of_same rfl, fun _ => id, fun _ => id⟩
  refine ⟨sound.carry more rfl rfl (Nat.le_succ _) fun v t known => (sound.types v t known).mono more.within, ?_⟩
  exact more.ready (sound.unused ⟨s.nextSymbol, kind, name, span⟩ le_rfl)

theorem obeys_setVariableTy (v : Variable) {t : Ty} (fits : t.In (R.lexicon s)) :
    (setVariableTy v t).Obeys R (fun _ s' => s'.Types v) s := by
  have types (u : Variable) (known : u = v ∨ s.Types u) :
      ({ s with variableTys := (v, t) :: s.variableTys } : Session).Types u := by
    unfold Session.Types at known ⊢
    rw [List.lookup_cons]
    by_cases same : u = v
    · rw [same, beq_self_eq_true]
      rfl
    · rw [beq_false_of_ne same]
      exact known.resolve_left same
  have more : R.Later s { s with variableTys := (v, t) :: s.variableTys } :=
    ⟨.of_same rfl, fun u known => types u (.inr known), fun _ => id⟩
  refine ⟨sound.carry more rfl rfl le_rfl fun u t' known => ?_, types v (.inl rfl)⟩
  change List.lookup u ((v, t) :: s.variableTys) = some t' at known
  rw [List.lookup_cons] at known
  by_cases same : u = v
  · rw [same, beq_self_eq_true] at known
    cases known
    exact fits.mono more.within
  · rw [beq_false_of_ne same] at known
    exact (sound.types u t' known).mono more.within

theorem obeys_withLocal {env : Env} (fits : env.Fits R s) (name : String) {v : Variable} (settled : R.Settled s v)
    (guards : R.barred v → R.guarded name) {t : Ty} (known : t.In (R.lexicon s)) :
    (withLocal env name v t).Obeys R (fun env' s' => env'.Fits R s') s := by
  refine (obeys_setVariableTy sound v known).bind fun _ s' leads typed => ?_
  have admits : R.Admits s' v := ⟨leads.1.levels v settled, fun _ => typed⟩
  refine obeys_pure leads.2 ⟨?_, (fits.later leads.1).returnTy⟩
  refine List.forall_mem_cons.mpr ⟨fun entry member => ?_, (fits.later leads.1).scope⟩
  rw [List.mem_singleton.mp member]
  refine ⟨Entity.Fits.all (e := .var v) admits nofun, fun u same => ?_⟩
  cases same
  exact guards

end Action

theorem Core.Expr.ty_enclose (e : Core.Expr) (temporaries : List Core.Temporary) :
    (e.enclose temporaries).ty = e.ty := by
  induction temporaries with
  | nil => rfl
  | cons t ts ih => exact ih

theorem Rules.ty_bindArguments (args : List (Variable × Core.Expr)) (call : Core.Expr) :
    (bindArguments args call).ty = call.ty := by
  induction args with
  | nil => rfl
  | cons a args ih => exact ih

namespace Finding

variable {R : Regime} {s : Session} (sound : R.Sound s) (env : Env)
include sound

theorem obeys_ofResolution {r : Resolution} (fits : r.Fits R s) (span : Span) :
    (ofResolution r span).Obeys R (Finding.Fits R) s := by
  unfold ofResolution
  split
  · rename_i v found
    have admits := Rules.admits_of_entity fits found
    split
    · refine (Rules.obeys_variableTy sound admits).bind fun t s' leads given => ?_
      exact Action.obeys_pure leads.2 ⟨given, leads.1.admits admits⟩
    · exact Action.obeys_pure sound fits
  · exact Action.obeys_pure sound fits

theorem obeys_temporary {e : Core.Expr} (fits : e.ty.In (R.lexicon s)) :
    (temporary e).Obeys R (fun t s' => R.Admits s' t.var) s := by
  refine (Action.obeys_newVariable sound .place none e.span).bind fun v s' leads ready => ?_
  refine (Action.obeys_setVariableTy leads.2 v (fits.mono leads.1.within)).bind fun _ s'' leads' typed => ?_
  exact Action.obeys_pure leads'.2 ⟨(leads'.1.ready ready).1, fun _ => typed⟩

theorem obeys_toPlace {f : Finding} (fits : f.Fits R s) :
    (f.toPlace env).Obeys R (fun p s' => p.node.Fits (R.lexicon s')) s := by
  obtain ⟨temporaries, span, found⟩ := f
  cases found with
  | place p => exact Action.obeys_pure sound fits
  | value e =>
    refine (obeys_temporary sound fits).bind fun t s' leads admits => ?_
    exact Action.obeys_pure leads.2 ⟨Ty.In.mono leads.1.within fits, admits⟩
  | method self idSpan f generics | name r => exact Action.obeys_reported sound fun _ _ => trivial

theorem obeys_toExpr {f : Finding} (fits : f.Fits R s) :
    (f.toExpr env).Obeys R (fun e s' => e.node.ty.In (R.lexicon s')) s := by
  have shared {p : Core.PlaceExpr} (fits : p.Fits (R.lexicon s)) :
      (p.ty.sharedFrom p.toPlace).In (R.lexicon s) := by
    refine ⟨fun q member => ?_, fits.ty⟩
    rw [List.mem_singleton.mp member]
    exact fits.toPlace.mono (R.lexicon_within_sharing s)
  obtain ⟨temporaries, span, found⟩ := f
  cases found with
  | place p =>
    cases p with
    | var span ty v => exact Action.obeys_pure sound (shared (p := .var span ty v) fits)
    | field span ty owner f => exact Action.obeys_pure sound (shared (p := .field span ty owner f) fits)
    | error r => exact Action.obeys_pure sound trivial
  | value e => exact Action.obeys_pure sound fits
  | method self idSpan f generics | name r => exact Action.obeys_reported sound fun _ _ => trivial

theorem obeys_toClosedExpr {f : Finding} (fits : f.Fits R s) :
    (f.toClosedExpr env).Obeys R (fun e s' => e.ty.In (R.lexicon s')) s := by
  refine (obeys_toExpr sound env fits).bind fun e s' leads given => Action.obeys_pure leads.2 ?_
  rwa [Core.Expr.ty_enclose]

end Finding

namespace Rules

open Prog

section Members

variable {R : Regime} {owing : Prop} {w : Moment} (env : Env)

theorem obeys_reportFinding (d : Diagnostic) : (perform (reportFinding env d)).Obeys R owing (Finding.Fits R) w :=
  obeys_perform (fun _ leads => Action.obeys_reported leads.2 fun _ _ => trivial) fun given later => given.later later

theorem obeys_taken {f : Finding} (fits : f.Fits R w.session) :
    (perform (f.toExpr env)).Obeys R owing (fun e s => e.node.ty.In (R.lexicon s)) w :=
  obeys_perform (fun _ leads => Finding.obeys_toExpr leads.2 env (fits.later leads.1))
    fun given later => given.mono later.within

theorem obeys_located {f : Finding} (fits : f.Fits R w.session) :
    (perform (f.toPlace env)).Obeys R owing (fun p s => p.node.Fits (R.lexicon s)) w :=
  obeys_perform (fun _ leads => Finding.obeys_toPlace leads.2 env (fits.later leads.1))
    fun given later => given.mono later.within

theorem obeys_member {owner : Finding} {ownerTy t : Ty} (name : Name) (span : Span)
    (fits : owner.Fits R w.session) (ty : ownerTy.In (R.lexicon w.session)) (bound : t.In (R.lexicon w.session)) :
    (member env owner ownerTy t name span).Obeys R owing (Finding.Fits R) w := by
  have head := bound.head
  unfold member
  dsimp only
  split
  · refine obeys_get_bind fun w' leads => ?_
    have fits := fits.later leads.1
    split
    · rename_i f known
      refine (obeys_located env fits).bind fun place w'' leads' located => ?_
      refine Obeys.bind (obeys_ask (g := .fieldTy env ownerTy f) (ty.mono (leads.trans leads').1.within) nofun)
        fun fieldTy w₃ leads'' given => obeys_ok fun s later => ?_
      exact ⟨Ty.In.mono later.1.within given, located.mono (leads''.trans later).1.within⟩
    · rename_i f known
      split
      · exact obeys_reportFinding env _
      · refine (obeys_taken env fits).bind fun self w'' leads' given => obeys_ok fun s later => ?_
        exact ⟨given.mono later.1.within, leads.2.members _ _ f known, nofun⟩
    · exact obeys_reportFinding env _
  · exact obeys_reportFinding env _
  · refine Obeys.bind (obeys_ask trivial nofun) fun found w' leads given => ?_
    split
    · refine obeys_relay (g := .member env owner ownerTy _ name span) ⟨fits.later leads.1, ?_, ?_⟩ nofun
      · exact ty.mono leads.1.within
      · exact (given _ rfl).1
    · exact obeys_reportFinding env _
  · exact obeys_ok fun _ _ => trivial
  · exact obeys_reportFinding env _
  · exact obeys_reportFinding env _

theorem Obeys.recovering {p : Prog Finding} (h : p.Obeys R owing (Finding.Fits R) w) :
    (recovering p).Obeys R owing (Finding.Fits R) w := by
  refine h.andThen fun r w' _ ends => ?_
  split
  · exact obeys_ok fun _ leads => Finding.Fits.later leads.1 ends
  · exact obeys_ok fun _ _ => trivial
  · exact obeys_fail ends

theorem obeys_lookupMember {owner : Finding} (name : Name) (span : Span) (fits : owner.Fits R w.session) :
    (lookupMember env owner name span).Obeys R owing (Finding.Fits R) w := by
  have whole := fits
  obtain ⟨temporaries, ownerSpan, found⟩ := owner
  cases found with
  | place p =>
    have ty := Core.PlaceExpr.Fits.ty fits
    exact Obeys.recovering (obeys_ask (g := .member env _ _ _ name span) ⟨whole, ty, ty⟩ nofun)
  | value e => exact Obeys.recovering (obeys_ask (g := .member env _ _ _ name span) ⟨whole, fits, fits⟩ nofun)
  | method self idSpan f generics | name r => exact obeys_reportFinding env _

end Members

end Rules

namespace Signature

variable {R : Regime} {s s' : Session} {sig : Signature}

/-- What types may mention when the generics of their signature are open and its inputs are not: what
generic arguments may, where there are generics, and what they declare. -/
def halfOpen (R : Regime) (s : Session) (sig : Signature) (own : Variable → Prop) : Lexicon :=
  { R.lexicon s with
    var := fun v => (R.spoken True s).var v ∧ sig.generics ≠ [] ∨ v ∈ sig.inputs ∧ own v ∨
      v ∉ sig.inputs ∧ R.Free v
    shown := fun v => R.Settled s v ∨ v ∈ sig.inputs }

def HalfOpen (R : Regime) (s : Session) (sig : Signature) (types : InputOutput) : Prop :=
  types.In (fun k => sig.halfOpen R s (sig.Own R k)) (sig.halfOpen R s fun _ => True)
    fun p => sig.halfOpen R s fun _ => R.Lax ∨ ¬ p.Inspects

theorem HalfOpen.later {types : InputOutput} (h : sig.HalfOpen R s types) (more : R.Later s s') :
    sig.HalfOpen R s' types := by
  have within (own : Variable → Prop) : (sig.halfOpen R s own).Within (sig.halfOpen R s' own) :=
    ⟨more.within.infer, fun v => Or.imp_left (And.imp_left ((more.within_spoken True).var v)),
      fun v => Or.imp_left (more.levels v), id⟩
  exact ⟨fun k t found => (h.inputTys k t found).mono (within _), h.outputTy.mono (within _),
    fun c member => (h.clauses c member).mono (within _)⟩

theorem ends_openGenerics (fits : sig.Fits R) {terms : List Term} (fills : ∀ t ∈ terms, t.Fills (R.spoken True s)) :
    EndsIn (fun types => sig.HalfOpen R s types) (Violation.Allowed R) (sig.openGenerics terms) := by
  unfold openGenerics Substitution.ofLists
  split
  · rename_i arity
    have within (own : Variable → Prop) : (sig.terms R own).Within
        ((sig.halfOpen R s own).under ⟨sig.generics.zip terms⟩) := by
      have included (some_ : sig.generics ≠ []) : (R.spoken True s).Within (sig.halfOpen R s own) :=
        ⟨fun _ _ => id, fun v spoken => .inl ⟨spoken, some_⟩, fun v => .inl, id⟩
      have sharing : (R.spoken True s).Within (sig.halfOpen R s own).sharing :=
        ⟨fun _ _ => id, fun v spoken => .inl spoken.1.1, fun v => .inl, id⟩
      refine ⟨fun _ _ => False.elim, fun v listed => ?_, fun v listed => ?_, id⟩
      · refine Lexicon.var_under arity.symm (fun t member => (fills t member).mono (included ?_))
          (listed.imp_right .inr)
        refine List.ne_nil_of_length_pos ?_
        have := List.length_pos_of_mem member
        omega
      · refine Lexicon.var_under (L := (sig.halfOpen R s own).sharing) arity.symm
          (fun t member => (fills t member).mono sharing) (listed.imp_right fun other => ?_)
        exact other.elim (fun input => .inr input.1) fun free => .inl (free.2.admits s).1
    have types : sig.types.In
        (fun k => (sig.halfOpen R s (sig.Own R k)).under ⟨sig.generics.zip terms⟩)
        ((sig.halfOpen R s fun _ => True).under ⟨sig.generics.zip terms⟩)
        (fun p => (sig.halfOpen R s fun _ => R.Lax ∨ ¬ p.Inspects).under ⟨sig.generics.zip terms⟩) :=
      ⟨fun k t found => (fits.types.inputTys k t found).mono (within _), fits.types.outputTy.mono (within _),
        fun c member => (fits.types.clauses c member).mono (within _)⟩
    exact (types.subst.imp fun _ opened => opened.1).fails fun _ => Violation.IsMisfit.allowed
  · trivial

structure Opened (R : Regime) (s : Session) (new : List Variable) (types : InputOutput) : Prop where
  keeps : types.In (fun k => (R.lexicon s).adding fun u => new[k]? = some u)
    ((R.lexicon s).adding (· ∈ new)) fun p => R.asked p s
  length : types.inputTys.length = new.length

theorem Opened.later {new : List Variable} {types : InputOutput} (h : Opened R s new types)
    (more : R.Later s s') : Opened R s' new types where
  keeps := ⟨fun k t found => (h.keeps.inputTys k t found).mono (more.within.adding _),
    h.keeps.outputTy.mono (more.within.adding _),
    fun c member => (h.keeps.clauses c member).mono (more.within_asked c.predicate)⟩
  length := h.length

section Inputs

variable {new : List Variable}

theorem lookup_input {v : Variable} {t : Term}
    (found : (⟨sig.inputs.zip ((new.map .var).map .place)⟩ : Substitution).lookup v = some t) :
    ∃ (j : Nat) (u : Variable), sig.inputs[j]? = some v ∧ new[j]? = some u ∧ t = .place (.var u) := by
  obtain ⟨j, at_⟩ := List.mem_iff_getElem?.mp (Substitution.mem_of_lookup found)
  obtain ⟨input, place⟩ := List.getElem?_zip_eq_some.mp at_
  simp only [List.map_map, List.getElem?_map, Option.map_eq_some_iff] at place
  obtain ⟨u, there, rfl⟩ := place
  exact ⟨j, u, input, there, rfl⟩

theorem not_input_of_lookup {v : Variable} (arity : sig.inputs.length = new.length)
    (none : (⟨sig.inputs.zip ((new.map .var).map .place)⟩ : Substitution).lookup v = none) : v ∉ sig.inputs := by
  intro input
  have count : ((new.map Place.var).map Term.place).length = sig.inputs.length := by simpa using arity.symm
  obtain ⟨t, found⟩ := Substitution.exists_lookup count input
  rw [none] at found
  cases found

/-- What half open types mention is there when the inputs are open too. -/
theorem halfOpen_within {L : Lexicon} {own : Variable → Prop} (fits : sig.Fits R) (base : (R.lexicon s).Within L)
    (arity : sig.inputs.length = new.length) (ready : ∀ v ∈ new, R.Ready s v) (all : R.Lax → ∀ v, own v)
    (opens : ∀ (j : Nat) (v u : Variable), sig.inputs[j]? = some v → new[j]? = some u → own v → L.var u) :
    (sig.halfOpen R s own).Within (L.under ⟨sig.inputs.zip ((new.map .var).map .place)⟩) := by
  refine ⟨base.infer, fun v mentioned => ?_, fun v mentioned => ?_, base.places⟩
  · simp only [Lexicon.under]
    split
    · rename_i t found
      obtain ⟨j, u, input, there, rfl⟩ := lookup_input found
      refine opens j v u input there ?_
      rcases mentioned with ⟨spoken, some_⟩ | ⟨_, declared⟩ | ⟨other, _⟩
      · -- a variable that is substituted for a generic parameter is no input
        rcases fits.apart with lax | none | barred
        · exact all lax v
        · exact absurd none some_
        · exact absurd (barred v (List.mem_of_getElem? input)) (spoken.2 trivial)
      · exact declared
      · exact absurd (List.mem_of_getElem? input) other
    · rename_i none
      rcases mentioned with ⟨spoken, _⟩ | ⟨input, _⟩ | ⟨_, free⟩
      · exact base.var v spoken.1
      · exact absurd input (not_input_of_lookup arity none)
      · exact base.var v (free.admits s)
  · simp only [Lexicon.under]
    split
    · rename_i t found
      obtain ⟨j, u, _, there, rfl⟩ := lookup_input found
      exact base.shown u (ready u (List.mem_of_getElem? there)).1
    · rename_i none
      exact base.shown v (mentioned.resolve_right (not_input_of_lookup arity none))

theorem ends_openInputs (fits : sig.Fits R) {types : InputOutput} (half : sig.HalfOpen R s types)
    (ready : ∀ v ∈ new, R.Ready s v) (count : types.inputTys.length = new.length) :
    EndsIn (Opened R s new) (Violation.Allowed R) (sig.openInputs types (new.map .var)) := by
  unfold openInputs Substitution.ofLists
  split
  · rename_i arity
    have arity : sig.inputs.length = new.length := by simpa using arity
    have lax {u : Variable} (member : u ∈ new) (lax : R.Lax) : R.Admits s u :=
      ⟨(ready u member).1, fun awaited => absurd awaited (lax u)⟩
    have base (more : Variable → Prop) : (R.lexicon s).Within ((R.lexicon s).adding more) :=
      ⟨fun _ _ => id, fun _ => .inl, fun _ => id, id⟩
    have opened : types.In
        (fun k => ((R.lexicon s).adding fun u => new[k]? = some u).under
          ⟨sig.inputs.zip ((new.map .var).map .place)⟩)
        (((R.lexicon s).adding (· ∈ new)).under
          ⟨sig.inputs.zip ((new.map .var).map .place)⟩)
        (fun p => (R.asked p s).under ⟨sig.inputs.zip ((new.map .var).map .place)⟩) := by
      refine ⟨fun k t found => (half.inputTys k t found).mono ?_, half.outputTy.mono ?_,
        fun c member => (half.clauses c member).mono ?_⟩
      · refine halfOpen_within fits (base _) arity ready (fun lax _ => .inl lax) fun j v u input there own => ?_
        rcases own with everywhere | only
        · exact .inl (lax (List.mem_of_getElem? there) everywhere)
        · exact .inr (only j input ▸ there)
      · exact halfOpen_within fits (base _) arity ready (fun _ _ => trivial)
          fun j v u _ there _ => .inr (List.mem_of_getElem? there)
      · refine halfOpen_within fits (R.lexicon_within_asked c.predicate s) arity ready (fun lax _ => .inl lax)
          fun j v u _ there own => ?_
        have member := List.mem_of_getElem? there
        exact ⟨(ready u member).1, fun inspects =>
          own.elim (fun everywhere => (lax member everywhere).2) fun other => absurd inspects other⟩
    refine (opened.subst.imp fun io opened => ⟨opened.1, opened.2.trans count⟩).fails
      fun _ => Violation.IsMisfit.allowed
  · trivial

end Inputs

end Signature

namespace Rules

open Prog

section Calls

variable {R : Regime} {owing : Prop} {w : Moment} {env : Env}

theorem spares_of_mem {es : List Source.Expr} (spares : R.Spares (Source.Expr.allWritten es)) :
    ∀ e ∈ es, R.Spares e.written := by
  rw [Source.Expr.allWritten_eq] at spares
  exact fun e member name written => spares name (List.mem_flatMap.mpr ⟨e, member, written⟩)

theorem obeys_toExprs {s : Session} (sound : R.Sound s) {fs : List Finding} (fits : ∀ f ∈ fs, f.Fits R s) :
    (toExprs env fs).Obeys R (fun _ _ => True) s := by
  induction fs generalizing s with
  | nil => exact Action.obeys_pure sound trivial
  | cons f fs ih =>
    obtain ⟨first, rest⟩ := List.forall_mem_cons.mp fits
    refine (Finding.obeys_toExpr sound env first).bind fun _ s' leads _ => ?_
    refine (ih leads.2 fun f member => (rest f member).later leads.1).bind fun _ _ leads' _ => ?_
    exact Action.obeys_pure leads'.2 trivial

theorem exists_of_forall₂ {α β : Type} {P : α → β → Prop} {as : List α} {bs : List β}
    (all : List.Forall₂ P as bs) : ∀ a ∈ as, ∃ b ∈ bs, P a b := by
  induction all with
  | nil => exact nofun
  | cons first _ ih =>
    refine List.forall_mem_cons.mpr ⟨⟨_, List.mem_cons_self, first⟩, fun a member => ?_⟩
    obtain ⟨b, listed, related⟩ := ih a member
    exact ⟨b, List.mem_cons_of_mem _ listed, related⟩

theorem obeys_inferred (span : Span) (vs : List Variable) :
    (perform (Action.freshFor env span vs)).Obeys R owing (fun ts s => ∀ t ∈ ts, t.Fills (R.spoken True s)) w :=
  obeys_perform (fun _ leads => Action.obeys_freshFor leads.2 env span vs)
    fun given later t member => (given t member).mono (later.within_spoken True)

theorem obeys_resolved {r : Resolution} {name : String} {span : Span} (fits : r.Fits R w.session) :
    (perform (resolveRelative env r name span)).Obeys R owing (Unless fun r s => r.Fits R s) w :=
  obeys_perform (fun _ leads => obeys_resolveRelative leads.2 (fits.later leads.1) name span)
    fun {x _ _} given later => by
      match x with
      | .ok (.found r) => exact Resolution.Fits.later later given
      | .ok (.notFound r) | .error report => trivial

variable (fits : env.Fits R w.session)
include fits

theorem obeys_signatureOrCheckArgs {f : Function} (callee : f.Fits R)
    {args : List Source.Expr} (spares : R.Spares (Source.Expr.allWritten args)) (written : List Source.Generic) :
    (signatureOrCheckArgs env f args written).Obeys R owing (Unless fun sig _ => sig.Fits R) w := by
  unfold Function.Fits at callee
  unfold signatureOrCheckArgs
  split
  · rename_i sig known
    rw [known] at callee
    exact obeys_ok fun _ _ => callee
  · refine (obeys_generics fits written False.elim).bind fun _ w' leads _ => ?_
    refine Obeys.bind (obeys_forM fun e member w'' leads' => ?_) fun _ _ _ _ => obeys_ok fun _ _ => trivial
    refine Obeys.bind (obeys_ask (g := .expr env e) ?_ nofun) fun _ _ _ _ => obeys_ok fun _ _ => trivial
    exact ⟨fits.later (leads.trans leads').1, spares_of_mem spares e member⟩
  · rename_i e known
    rw [known] at callee
    exact obeys_fail callee

theorem obeys_argument {a : Argument} {v : Variable} {inputTy : Ty}
    (given : a.Fits R w.session) (ready : R.Ready w.session v)
    (input : inputTy.In ((R.lexicon w.session).adding (· = v))) :
    (argument env a v inputTy).Obeys R owing (fun f s => f.Fits R s ∧ s.Types v) w := by
  have rest (lifted : Lifted Core.Expr) {w' : Moment} (more : R.Later w.session w'.session)
      (value : lifted.node.ty.In (R.lexicon w'.session)) :
      (do
        Action.setVariableTy v lifted.node.ty
        postAssignable env.fork lifted.node.ty inputTy
          ⟨.subtype lifted.node.span (.ty lifted.node.ty) (.ty inputTy), []⟩
        return .ofExpr lifted.node lifted.temporaries : Prog Finding).Obeys R owing
          (fun f s => f.Fits R s ∧ s.Types v) w' := by
    refine Obeys.bind (obeys_perform (fun s later => Action.obeys_setVariableTy later.2 v
      (value.mono later.1.within)) fun typed later => later.types v typed) fun _ w'' leads' typed => ?_
    have now := more.trans leads'.1
    have admits : R.Admits w''.session v := ⟨(now.ready ready).1, fun _ => typed⟩
    have input : inputTy.In (R.lexicon w''.session) := by
      refine input.mono (Lexicon.adding_within now.within fun u same => ?_)
      rwa [same]
    have value := value.mono leads'.1.within
    refine (obeys_postAssignable env.fork _ value input).bind fun _ w₃ leads'' _ => obeys_ok fun s later => ?_
    have after := leads''.trans later
    exact ⟨Ty.In.mono after.1.within value, after.1.types v typed⟩
  unfold argument
  cases a with
  | self e => exact rest ⟨e, []⟩ (.refl _) given
  | expr e =>
    refine Obeys.bind (obeys_ask (g := .expr env.fork e) ⟨fits.fork, given⟩ nofun) fun f w' leads found => ?_
    exact (obeys_taken env.fork found).bind fun lifted w'' leads' value => rest lifted (leads.trans leads').1 value

theorem obeys_arguments {args : List Argument} {new : List Variable} {types : InputOutput}
    (given : ∀ a ∈ args, a.Fits R w.session) (ready : ∀ v ∈ new, R.Ready w.session v) (count : args.length = new.length)
    (opened : Signature.Opened R w.session new types) :
    (gathered (((args.zip new).zip types.inputTys).map fun ((a, v), inputTy) =>
      Goal.argument env a v inputTy)).Obeys R owing
      (fun fs s => (∀ f ∈ fs, f.Fits R s) ∧ ∀ v ∈ new, s.Types v) w := by
  refine Obeys.imp (obeys_gathered (List.forall_mem_map.mpr ?_)) fun fs w' _ all => ?_
  · rintro ⟨⟨a, v⟩, inputTy⟩ member
    obtain ⟨k, at_⟩ := List.mem_iff_getElem?.mp member
    obtain ⟨pair, input⟩ := List.getElem?_zip_eq_some.mp at_
    obtain ⟨argument, variable_⟩ := List.getElem?_zip_eq_some.mp pair
    refine ⟨fits, given a (List.mem_of_getElem? argument), ready v (List.mem_of_getElem? variable_), ?_⟩
    have within : ((R.lexicon w.session).adding fun u => new[k]? = some u).Within
        ((R.lexicon w.session).adding (· = v)) :=
      ⟨fun _ _ => id, fun u => Or.imp_right fun same => Option.some.inj (same.symm.trans variable_), fun _ => id, id⟩
    exact (opened.keeps.inputTys k inputTy input).mono within
  · rw [List.forall₂_map_left_iff] at all
    refine ⟨fun f member => ?_, fun v member => ?_⟩
    · obtain ⟨⟨⟨a, v⟩, inputTy⟩, _, fits⟩ := exists_of_forall₂ all.flip f member
      exact fits.1
    · obtain ⟨k, at_⟩ := List.mem_iff_getElem?.mp member
      obtain ⟨inside, _⟩ := List.getElem?_eq_some_iff.mp at_
      have first : k < args.length := by omega
      have third : k < types.inputTys.length := opened.length ▸ inside
      have listed : ((args.get ⟨k, first⟩, v), types.inputTys.get ⟨k, third⟩) ∈
          (args.zip new).zip types.inputTys := by
        refine List.mem_of_getElem? (i := k) (List.getElem?_zip_eq_some.mpr ⟨List.getElem?_zip_eq_some.mpr
          ⟨?_, at_⟩, ?_⟩)
        · exact List.getElem?_eq_getElem first
        · exact List.getElem?_eq_getElem third
      obtain ⟨f, _, fits⟩ := exists_of_forall₂ all _ listed
      exact fits.2

theorem obeys_callCommon (f : Function) {sig : Signature} (callee : sig.Fits R)
    (exprSpan calleeSpan : Span) {substitution : List Term}
    (fills : ∀ t ∈ substitution, t.Fills (R.spoken True w.session))
    {args : List Argument} (given : ∀ a ∈ args, a.Fits R w.session) (temporaries : List Core.Temporary) :
    (callCommon env f sig exprSpan calleeSpan substitution args temporaries).Obeys R owing (Finding.Fits R) w := by
  refine obeys_log_bind (obeys_log_bind ?_)
  refine Obeys.bind (G := fun types s => sig.HalfOpen R s types) (obeys_lift fun s leads => ?_)
    fun types w₁ leads₁ half => ?_
  · exact Signature.ends_openGenerics callee fun t member => (fills t member).mono (leads.1.within_spoken True)
  dsimp only
  split
  · exact obeys_reportFinding env _
  rename_i arity
  refine Obeys.bind (obeys_perform (fun s leads => Action.obeys_mapM (P := fun v s => R.Ready s v) leads.2
    (fun ready later => later.ready ready) (fun a _ sound => Action.obeys_newVariable sound .place none a.span) args)
    fun made later => ⟨made.1, fun v member => later.ready (made.2 v member)⟩) fun new w₂ leads₂ made => ?_
  obtain ⟨count, ready⟩ := made
  refine Obeys.bind (G := fun types s => Signature.Opened R s new types) (obeys_lift fun s leads => ?_)
    fun types' w₃ leads₃ opened => ?_
  · refine Signature.ends_openInputs callee (half.later (leads₂.trans leads).1)
      (fun v member => leads.1.ready (ready v member)) ?_
    omega
  refine obeys_log_bind (obeys_log_bind ?_)
  refine Obeys.bind (obeys_forM fun c member w' leads => ?_) fun _ w₄ leads₄ _ => ?_
  · exact obeys_post ((opened.keeps.clauses c member).mono (leads.1.within_asked c.predicate))
  have before := ((leads₁.trans leads₂).trans leads₃).trans leads₄
  have opened : Signature.Opened R w₄.session new types' := opened.later leads₄.1
  refine Obeys.bind (obeys_arguments (fits.later before.1) (fun a member => (given a member).later before.1)
    (fun v member => (leads₃.trans leads₄).1.ready (ready v member)) count.symm opened)
    fun findings w₅ leads₅ checked => ?_
  refine Obeys.bind (obeys_perform (fun s leads => obeys_toExprs leads.2
    fun f member => (checked.1 f member).later leads.1) fun _ _ => trivial) fun values w₆ leads₆ _ => ?_
  refine obeys_ok fun s later => ?_
  have since := (leads₅.trans leads₆).trans later
  -- by now every variable that the output type can mention has a type
  change Ty.In _ (bindArguments _ _).ty
  rw [ty_bindArguments]
  refine opened.keeps.outputTy.mono (Lexicon.adding_within since.1.within fun v member => ?_)
  refine ⟨(since.1.ready ((leads₃.trans leads₄).1.ready (ready v member))).1, fun _ => ?_⟩
  exact (leads₆.trans later).1.types v (checked.2 v member)

theorem obeys_callFunction (functionSpan exprSpan : Span) {f : Function}
    (callee : f.Fits R) {args : List Source.Expr} (spares : R.Spares (Source.Expr.allWritten args))
    {given : List Term} (fills : ∀ t ∈ given, t.Fills (R.spoken True w.session)) (temporaries : List Core.Temporary) :
    (callFunction env functionSpan exprSpan f args given temporaries).Obeys R owing (Finding.Fits R) w := by
  refine obeys_log_bind (obeys_log_bind ?_)
  refine (obeys_signatureOrCheckArgs fits callee spares []).awaited.bind fun found w' leads checked => ?_
  split
  · exact obeys_ok fun _ _ => trivial
  · split
    · exact obeys_violate trivial
    · refine (obeys_inferred functionSpan _).bind fun inferred w'' leads' fresh => ?_
      have now := leads.trans leads'
      refine Obeys.relayed (obeys_callCommon (fits.later now.1) f checked exprSpan functionSpan
        (fun t member => ?_) ?_ temporaries)
      · rcases List.mem_append.mp member with old | new
        · exact (fills t old).mono (now.1.within_spoken True)
        · exact fresh t new
      · exact List.forall_mem_map.mpr (spares_of_mem spares)

theorem obeys_consGeneric {g : Source.Generic} (spares : R.Spares g.names)
    (kind : Kind) (d : Term → Diagnostic) {rest : Prog (Except Report (List Term))}
    (h : ∀ w', R.Leads w.session w'.session →
      rest.Obeys R owing (Unless fun ts s => ∀ t ∈ ts, t.Fills (R.spoken True s)) w') :
    (do
      let t ← Prog.awaited (generic env g)
      if !t.hasKind kind then
        return .error (← Action.report env (d t))
      match ← rest with
      | .ok ts => return .ok (t :: ts)
      | .error r => return .error r : Prog (Except Report (List Term))).Obeys R owing
        (Unless fun ts s => ∀ t ∈ ts, t.Fills (R.spoken True s)) w := by
  refine (obeys_generic fits g fun _ : True => spares).awaited.bind fun t w' leads first => ?_
  split
  · exact obeys_reported fun _ _ => trivial
  · refine (h w' leads).bind fun found w'' leads' given => ?_
    split
    · exact obeys_ok fun s later => List.forall_mem_cons.mpr ⟨first.mono ((leads'.trans later).1.within_spoken True),
        fun u member => (given u member).mono (later.1.within_spoken True)⟩
    · exact obeys_ok fun _ _ => trivial

theorem obeys_explicitGenerics (pointed : Source.Generic → Span) (vs : List Variable)
    {gs : List Source.Generic} (spares : R.Spares (Source.Generic.allNames gs)) :
    (explicitGenerics env pointed vs gs).Obeys R owing (Unless fun ts s => ∀ t ∈ ts, t.Fills (R.spoken True s)) w := by
  induction vs generalizing gs w with
  | nil => exact obeys_ok nofun
  | cons v vs ih =>
    cases gs with
    | nil => exact obeys_ok nofun
    | cons g gs =>
      obtain ⟨first, rest⟩ := List.forall_mem_append.mp spares
      exact obeys_consGeneric fits first v.kind _ fun w' leads => ih (fits.later leads.1) rest

theorem obeys_methodSubstitution (idSpan : Span) (f : Function) (sig : Signature)
    {written : Option (List Source.Generic)}
    (spares : ∀ gs, written = some gs → R.Spares (Source.Generic.allNames gs)) :
    (methodSubstitution env idSpan f sig written).Obeys R owing
      (Unless fun ts s => ∀ t ∈ ts, t.Fills (R.spoken True s)) w := by
  cases written with
  | none =>
    exact (obeys_inferred idSpan _).bind fun _ _ _ given =>
      obeys_ok fun _ later t member => (given t member).mono (later.1.within_spoken True)
  | some written =>
    dsimp only [methodSubstitution]
    split
    · exact obeys_violate trivial
    · refine (obeys_inferred idSpan _).bind fun outer w' leads given => ?_
      split
      · exact obeys_reported fun _ _ => trivial
      · refine (obeys_explicitGenerics (fits.later leads.1) _ _ (spares written rfl)).bind fun found w'' leads' own => ?_
        split
        · refine obeys_ok fun s later t member => ?_
          rcases List.mem_append.mp member with old | new
          · exact (given t old).mono ((leads'.trans later).1.within_spoken True)
          · exact (own t new).mono (later.1.within_spoken True)
        · exact obeys_ok fun _ _ => trivial

theorem obeys_callMethod (idSpan exprSpan : Span) {f : Function}
    (callee : f.Fits R) {self : Core.Expr} (receiver : self.ty.In (R.lexicon w.session))
    {args : List Source.Expr} (given : R.Spares (Source.Expr.allWritten args)) {written : Option (List Source.Generic)}
    (spares : ∀ gs, written = some gs → R.Spares (Source.Generic.allNames gs)) (temporaries : List Core.Temporary) :
    (callMethod env idSpan exprSpan f self args written temporaries).Obeys R owing (Finding.Fits R) w := by
  refine (obeys_signatureOrCheckArgs fits callee given _).awaited.bind fun found w' leads checked => ?_
  split
  · exact obeys_ok fun _ _ => trivial
  · refine (obeys_methodSubstitution (fits.later leads.1) idSpan f _ spares).bind fun found w'' leads' fills => ?_
    split
    · exact obeys_ok fun _ _ => trivial
    · have now := leads.trans leads'
      refine Obeys.relayed (obeys_callCommon (fits.later now.1) f checked exprSpan idSpan fills ?_ temporaries)
      exact List.forall_mem_cons.mpr ⟨receiver.mono now.1.within, List.forall_mem_map.mpr (spares_of_mem given)⟩

theorem obeys_callClass (classSpan exprSpan : Span) {r : Resolution}
    (given : r.Fits R w.session) (a : Aggregate) {args : List Source.Expr}
    (spares : R.Spares (Source.Expr.allWritten args)) (temporaries : List Core.Temporary) :
    (callClass env classSpan exprSpan r a args temporaries).Obeys R owing (Finding.Fits R) w := by
  refine (obeys_resolved given).bind fun found w' leads resolved => ?_
  split
  · exact obeys_ok fun _ _ => trivial
  · refine Obeys.relayed (obeys_callFunction (fits.later leads.1) classSpan exprSpan ?_ spares ?_ temporaries)
    · exact Entity.AllFit.self (Resolution.Fits.entity resolved)
    · exact Resolution.Fits.generics resolved
  · exact obeys_reportFinding env _
  · exact obeys_reportFinding env _

end Calls

end Rules

end Ownership
