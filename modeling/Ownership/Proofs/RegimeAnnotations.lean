import Ownership.Proofs.RegimeConstraints
import Ownership.Proofs.Scoping

namespace Ownership

section Names

variable {R : Regime} {s : Session}

theorem Entity.AllFit.self {e : Entity} (h : e.AllFit R s) : e.Fits R s := h e (.self e)

variable {name : String} {span : Span}

theorem Entity.AllFit.item {items : List (String × Entity)}
    {entry : String × Entity} (h : (Entity.module name span items).AllFit R s) (listed : entry ∈ items) :
    entry.2.AllFit R s := fun e inner => h e (.item listed inner)

theorem Entity.Fits.all {e : Entity} (h : e.Fits R s) (single : ∀ name span items, e ≠ .module name span items) :
    e.AllFit R s := by
  intro e' contained
  cases contained with
  | self => exact h
  | item listed inner => exact absurd rfl (single _ _ _)

theorem Scope.Fits.lookup {scope : Scope} {e : Entity} (h : scope.Fits R s) (found : scope.lookup name = some e) :
    e.AllFit R s ∧ ∀ v, e = .var v → R.barred v → R.guarded name := by
  obtain ⟨group, listed, found⟩ := List.exists_of_findSome?_eq_some found
  exact h group listed _ (Entity.mem_of_lookup found)

/-- The name stands for the resolution, and if that is a barred place, the name is guarded. -/
structure Resolution.Named (R : Regime) (s : Session) (name : String) (r : Resolution) : Prop where
  fits : r.Fits R s
  guarded : ∀ v, r.entity = .var v → R.barred v → R.guarded name

theorem Scope.Fits.resolve {scope : Scope} {r : Resolution}
    (h : scope.Fits R s) (found : scope.resolve name span = .ok r) : r.Named R s name := by
  unfold Scope.resolve Scope.resolve? at found
  cases known : scope.lookup name with
  | some e =>
    rw [known] at found
    cases found
    exact ⟨⟨(h.lookup known).1, nofun⟩, (h.lookup known).2⟩
  | none =>
    rw [known] at found
    cases primitive : Primitive.ofName? name with
    | none =>
      rw [primitive] at found
      cases found
    | some p =>
      rw [primitive] at found
      cases found
      exact ⟨⟨Entity.Fits.all (e := .primitive p) trivial nofun, nofun⟩, nofun⟩

def RelativeResolution.Fits (R : Regime) (s : Session) : RelativeResolution → Prop
  | .found r => r.Fits R s
  | .notFound _ => True

theorem Resolution.Fits.relative {r : Resolution} {found : RelativeResolution} (h : r.Fits R s) (sound : R.Sound s)
    (resolved : r.relative s.program name span = .ok found) : found.Fits R s := by
  obtain ⟨entity, generics⟩ := r
  unfold Resolution.relative at resolved
  cases entity with
  | module moduleName moduleSpan items =>
    dsimp only at resolved
    cases known : items.lookup name with
    | some e =>
      rw [known] at resolved
      cases resolved
      exact ⟨h.entity.item (Entity.mem_of_lookup known), nofun⟩
    | none =>
      rw [known] at resolved
      cases resolved
  | aggregate a =>
    dsimp only at resolved
    cases known : s.program.member a name with
    | none =>
      rw [known] at resolved
      cases resolved
      trivial
    | some m =>
      rw [known] at resolved
      cases m with
      | function f =>
        cases resolved
        exact ⟨Entity.Fits.all (e := .function f) (sound.members a name f known) nofun, h.generics⟩
      | field f =>
        cases resolved
        exact ⟨Entity.Fits.all (e := .field f) trivial nofun, h.generics⟩
  | var v | function f | field f | primitive p =>
    cases resolved
    trivial

end Names

namespace Rules

open Prog

abbrev Unless {ε α : Type} (P : α → Session → Prop) (x : Except ε α) (s : Session) : Prop :=
  EndsIn (fun a => P a s) (fun _ => True) x

section Resolving

variable {R : Regime} {s : Session} {env : Env} (sound : R.Sound s)
include sound

theorem obeys_resolveName (fits : env.Fits R s) (name : String) (span : Span) :
    (resolveName env name span).Obeys R (Unless fun r s => r.Named R s name) s := by
  unfold resolveName
  split
  · rename_i r found
    exact Action.obeys_pure sound (fits.scope.resolve found)
  · exact Action.obeys_reported sound fun _ _ => trivial

variable {r : Resolution}

theorem obeys_resolveRelative (fits : r.Fits R s) (name : String) (span : Span) :
    (resolveRelative env r name span).Obeys R (Unless fun r s => r.Fits R s) s := by
  refine (Action.obeys_get sound).bind fun x s' leads same => ?_
  subst same
  split
  · rename_i found resolved
    exact Action.obeys_pure leads.2 ((fits.later leads.1).relative leads.2 resolved)
  · exact Action.obeys_reported leads.2 fun _ _ => trivial

theorem obeys_resolveRest (fits : r.Fits R s) (rest : List Name) :
    (resolveRest env r rest).Obeys R (Unless fun r s => r.Fits R s) s := by
  induction rest generalizing r s with
  | nil => exact Action.obeys_pure sound fits
  | cons segment rest ih =>
    refine (obeys_resolveRelative sound fits segment.id segment.span).bind fun found s' leads given => ?_
    split
    · exact Action.obeys_pure leads.2 trivial
    · exact ih leads.2 given
    · exact Action.obeys_reported leads.2 fun _ _ => trivial

theorem obeys_resolvePath (fits : env.Fits R s) (first : Name) (rest : List Name) :
    (resolvePath env first rest).Obeys R (Unless fun r s => r.Fits R s) s := by
  refine (obeys_resolveName sound fits first.id first.span).bind fun found s' leads given => ?_
  split
  · exact Action.obeys_pure leads.2 trivial
  · exact obeys_resolveRest leads.2 (Resolution.Named.fits given) rest

omit sound in
theorem hasKind_of_firstMisfit {ks : List Kind} {ts : List Term} {ss : List Span} {vs : List (Option Variable)}
    (count : ts.length = ks.length) (written : ss.length = ts.length) (parameters : vs.length = ks.length)
    (none : firstMisfit ks ts ss vs = none) : ∀ t ∈ ts, ∃ k ∈ ks, t.hasKind k = true := by
  induction ts generalizing ks ss vs with
  | nil => exact List.forall_mem_nil _
  | cons t ts ih =>
    obtain ⟨k, ks, rfl⟩ := List.exists_cons_of_length_eq_add_one count.symm
    obtain ⟨_, ss, rfl⟩ := List.exists_cons_of_length_eq_add_one written
    obtain ⟨_, vs, rfl⟩ := List.exists_cons_of_length_eq_add_one parameters
    rw [firstMisfit] at none
    split at none
    · rename_i fits
      refine List.forall_mem_cons.mpr ⟨⟨k, List.mem_cons_self, fits⟩, fun u member => ?_⟩
      obtain ⟨k', listed, fits'⟩ := ih (Nat.succ.inj count) (Nat.succ.inj written) (Nat.succ.inj parameters)
        none u member
      exact ⟨k', List.mem_cons_of_mem _ listed, fits'⟩
    · cases none

variable {strict : Prop}

theorem obeys_checkGenericArgs {span : Span} {name : String} {expected : List Kind}
    {parameters : List (Option Variable)} {written : List Source.Generic} {args : List Term}
    (fills : ∀ t ∈ args, t.Fills (R.spoken strict s)) (count : written.length = args.length)
    (same : parameters.length = expected.length) (allowed : R.placeArguments ∨ ∀ k ∈ expected, k ≠ .place) :
    (checkGenericArgs env span name expected parameters written args).Obeys R
      (fun misfit s => misfit = none → ∀ t ∈ args, t.In (R.spoken strict s)) s := by
  unfold checkGenericArgs
  dsimp only
  split
  · exact Action.obeys_reported sound fun _ _ => nofun
  · rename_i arity
    split
    · rename_i none
      refine Action.obeys_pure sound fun _ t member => (fills t member).in (allowed.imp_right fun kinds => ?_)
      have spans : (written.map Source.Generic.span).length = args.length := by simpa using count
      obtain ⟨k, listed, fits⟩ := hasKind_of_firstMisfit (by omega) spans same none t member
      intro place
      rw [Term.hasKind, place, decide_eq_true_iff] at fits
      exact kinds k listed fits.symm
    · exact Action.obeys_reported sound fun _ _ => nofun

variable {written : List Source.Generic} {args : List Term}

theorem obeys_namedTyOfResolution (span : Span) (fits : r.Fits R s)
    (fills : ∀ t ∈ args, t.Fills (R.spoken strict s)) (count : written.length = args.length) :
    (namedTyOfResolution env span written args r).Obeys R (fun t s => t.In (R.spoken strict s)) s := by
  have entity := fits.entity.self
  unfold namedTyOfResolution
  dsimp only
  split
  · split
    · exact Action.obeys_pure sound trivial
    · exact Action.obeys_reported sound fun _ _ => trivial
  · rename_i a found
    rw [found] at entity
    refine (obeys_checkGenericArgs sound fills count (by simp) ?_).bind fun misfit s' leads given => ?_
    · exact entity.imp_right fun kinds => List.forall_mem_map.mpr kinds
    · split
      · exact Action.obeys_pure leads.2 trivial
      · exact Action.obeys_pure leads.2 (Ty.in_named.mpr (given rfl))
  · rename_i v found
    rw [found] at entity
    split
    · exact Action.obeys_reported sound fun _ _ => trivial
    · rename_i other
      split
      · refine Action.obeys_pure sound ⟨entity, fun _ barred => other ?_⟩
        rw [R.places_barred v barred]
        exact nofun
      · exact Action.obeys_reported sound fun _ _ => trivial
  · exact Action.obeys_reported sound fun _ _ => trivial

theorem obeys_namedTy (span : Span) (first : Name) (rest : List Name) (fits : env.Fits R s)
    (fills : ∀ t ∈ args, t.Fills (R.spoken strict s)) (count : written.length = args.length) :
    (namedTy env span first rest written args).Obeys R (fun t s => t.In (R.spoken strict s)) s := by
  unfold namedTy
  split
  · refine (obeys_checkGenericArgs sound fills count rfl (.inr ?_)).bind fun misfit s' leads given => ?_
    · exact fun k listed => by simp_all
    · split
      · exact Action.obeys_pure leads.2 trivial
      · exact Action.obeys_pure leads.2 (Ty.in_named.mpr (given rfl))
  · refine (obeys_resolvePath sound fits first rest).bind fun found s' leads given => ?_
    split
    · exact Action.obeys_pure leads.2 trivial
    · exact obeys_namedTyOfResolution leads.2 span given (fun t member => (fills t member).mono (leads.1.within_spoken strict))
        count

end Resolving

section Annotations

variable {R : Regime} {owing : Prop} {w : Moment} {env : Env}

theorem obeys_findField {base : Place} (segment : Name) (fits : base.In (R.lexicon w.session)) :
    (findField env base segment).Complies R owing w := by
  refine (obeys_placeTy env fits).awaited.bind fun baseTy w' _ _ => obeys_get_bind fun w'' _ => ?_
  dsimp only
  split
  · exact obeys_raise _
  · split
    · exact obeys_ok fun _ _ => trivial
    · exact (obeys_report env _).bind fun r _ _ _ => obeys_raise r
  · exact (obeys_report env _).bind fun r _ _ _ => obeys_raise r

variable {strict : Prop}

theorem obeys_placeFields (base : Place) (fields : List Name) (fits : base.In (R.spoken strict w.session)) :
    (placeFields env base fields).Obeys R owing (fun p s => p.In (R.spoken strict s)) w := by
  induction fields generalizing base w with
  | nil => exact obeys_ok fun _ leads => fits.mono (leads.1.within_spoken strict)
  | cons segment rest ih =>
    refine (obeys_findField segment (fits.mono (R.spoken_within_lexicon strict _))).awaited.bind fun f w' leads _ => ?_
    exact ih (.field base f) (fits.mono (leads.1.within_spoken strict))

theorem admits_of_entity {s : Session} {r : Resolution} {v : Variable} (fits : r.Fits R s)
    (found : r.entity = .var v) : R.Admits s v := by
  have entity := fits.entity.self
  rwa [found] at entity

theorem obeys_named {name : String} {span : Span} (fits : env.Fits R w.session) :
    (perform (resolveName env name span)).Obeys R owing (Unless fun r s => r.Named R s name) w :=
  obeys_perform (fun _ leads => obeys_resolveName leads.2 (fits.later leads.1) name span)
    fun {x _ _} given later => by
      cases x with
      | ok r => exact ⟨(Resolution.Named.fits given).later later, Resolution.Named.guarded given⟩
      | error report => trivial

theorem obeys_place (fits : env.Fits R w.session) (p : Source.Place) (spares : strict → ¬ R.guarded p.root.id) :
    (place env p).Obeys R owing (fun p s => p.In (R.spoken strict s)) w := by
  refine (obeys_named fits).bind fun found w' leads given => ?_
  split
  · exact obeys_ok fun _ _ => trivial
  · dsimp only
    split
    · rename_i v entity
      split
      · exact obeys_reported fun _ _ => trivial
      · have root : Place.In (R.spoken strict w'.session) (.var v) :=
          ⟨admits_of_entity (Resolution.Named.fits given) entity,
            fun held barred => spares held (Resolution.Named.guarded given v entity barred)⟩
        refine (obeys_placeFields (.var v) p.fields root).andThen fun r w'' _ ends => ?_
        split
        · exact obeys_ok fun _ leads' => Place.In.mono (leads'.1.within_spoken strict) ends
        · exact obeys_ok fun _ _ => trivial
        · exact obeys_fail ends
    · exact obeys_reported fun _ _ => trivial

theorem obeys_places (fits : env.Fits R w.session) (ps : List Source.Place)
    (spares : strict → R.Spares (ps.map (·.root.id))) :
    (places env ps).Obeys R owing (fun ps s => ∀ p ∈ ps, p.In (R.spoken strict s)) w := by
  induction ps generalizing w with
  | nil => exact obeys_ok nofun
  | cons p ps ih =>
    refine (obeys_place fits p fun held => spares held _ List.mem_cons_self).awaited.bind fun place w' leads first => ?_
    refine (ih (fits.later leads.1) fun held name member => spares held name (List.mem_cons_of_mem _ member)).bind
      fun rest w'' leads' given => obeys_ok fun s later => ?_
    refine List.forall_mem_cons.mpr ⟨first.mono ((leads'.trans later).1.within_spoken strict), fun q member => ?_⟩
    exact (given q member).mono (later.1.within_spoken strict)

theorem obeys_perm (fits : env.Fits R w.session) (p : Source.Perm) (spares : strict → R.Spares p.names) :
    (perm env p).Obeys R owing (fun q s => q.In (R.spoken strict s)) w := by
  unfold perm
  split
  · exact obeys_ok fun _ _ => trivial
  · exact obeys_ok fun _ _ => trivial
  · rename_i written
    have places : (places env written).Obeys R owing (fun ps s => ∀ p ∈ ps, p.In (R.spoken False s)) w :=
      obeys_places fits written False.elim
    refine places.awaited.bind fun _ _ _ given => obeys_ok fun s later p member => ?_
    have settled := (given p member).mono (R.spoken_within_lexicon False _)
    exact (settled.mono (R.lexicon_within_sharing _)).mono later.1.within.sharing
  · exact (obeys_places fits _ spares).awaited.bind fun _ _ _ given =>
      obeys_ok fun _ later p member => (given p member).mono (later.1.within_spoken strict)
  · exact obeys_reported fun _ _ => trivial
  · refine (obeys_named fits).bind fun found w' leads given => ?_
    split
    · exact obeys_ok fun _ _ => trivial
    · dsimp only
      split
      · rename_i v entity
        split
        · rename_i perm
          refine obeys_ok fun _ later =>
            ⟨later.1.admits (admits_of_entity (Resolution.Named.fits given) entity), fun _ barred => ?_⟩
          exact Kind.noConfusion (perm.symm.trans (R.places_barred v barred))
        · exact obeys_reported fun _ _ => trivial
      · exact obeys_reported fun _ _ => trivial

theorem fills_loneVariable {t : Source.Ty} {v : Variable} {s : Session} (fits : env.Fits R s)
    (lone : loneVariable env t = some v) (spares : strict → R.Spares t.names) :
    (Term.ofVariable v).Fills (R.spoken strict s) := by
  unfold loneVariable at lone
  split at lone
  · split at lone
    · rename_i found
      cases lone
      obtain ⟨entity, guarded⟩ := fits.scope.lookup found
      exact Term.fills_ofVariable ⟨entity.self, fun held barred =>
        spares held _ List.mem_cons_self (guarded v rfl barred)⟩
    · cases lone
  · cases lone

omit strict in
mutual
theorem obeys_ty {strict : Prop} {w : Moment} (fits : env.Fits R w.session) : (t : Source.Ty) →
    (strict → R.Spares t.names) → (ty env t).Obeys R owing (fun t s => t.In (R.spoken strict s)) w
  | .named span first path written, spares => by
    refine Obeys.relayed ((obeys_generics fits written fun held name member =>
      spares held name (List.mem_cons_of_mem _ member)).bind fun args w' leads given => ?_)
    refine obeys_perform (fun s later => ?_) fun given later => given.mono (later.within_spoken strict)
    exact obeys_namedTy later.2 span first path (fits.later (leads.trans later).1)
      (fun t member => (given.2 t member).mono (later.1.within_spoken strict)) given.1.symm
  | .perm _ p t, spares => by
    have split (held : strict) := List.forall_mem_append.mp (spares held)
    refine (obeys_perm fits p fun held => (split held).1).awaited.bind fun q w' leads outer => ?_
    refine (obeys_ty (fits.later leads.1) t fun held => (split held).2).awaited.bind fun inner w'' leads' given => ?_
    exact obeys_ok fun s later => (outer.mono ((leads'.trans later).1.within_spoken strict)).applyTo
      (given.mono (later.1.within_spoken strict))
  | .tuple _ elements, spares => by
    refine (obeys_tys fits elements spares).bind fun ts w' _ given => obeys_ok fun s later => ?_
    exact Ty.in_named.mpr (List.forall_mem_map.mpr fun t member =>
      (given t member).mono (later.1.within_spoken strict))

theorem obeys_tys {strict : Prop} {w : Moment} (fits : env.Fits R w.session) : (ts : List Source.Ty) →
    (strict → R.Spares (Source.Ty.allNames ts)) →
    (tys env ts).Obeys R owing (fun ts s => ∀ t ∈ ts, t.In (R.spoken strict s)) w
  | [], _ => obeys_ok nofun
  | t :: ts, spares => by
    have split (held : strict) := List.forall_mem_append.mp (spares held)
    refine (obeys_ty fits t fun held => (split held).1).awaited.bind fun t w' leads first => ?_
    refine (obeys_tys (fits.later leads.1) ts fun held => (split held).2).bind fun rest w'' leads' given =>
      obeys_ok fun s later => ?_
    refine List.forall_mem_cons.mpr ⟨first.mono ((leads'.trans later).1.within_spoken strict), fun u member => ?_⟩
    exact (given u member).mono (later.1.within_spoken strict)

theorem obeys_generic {strict : Prop} {w : Moment} (fits : env.Fits R w.session) : (g : Source.Generic) →
    (strict → R.Spares g.names) → (generic env g).Obeys R owing (fun t s => t.Fills (R.spoken strict s)) w
  | .perm p, spares => Obeys.relayed ((obeys_perm fits p spares).bind fun _ _ _ given =>
      obeys_ok fun _ later => given.mono (later.1.within_spoken strict))
  | .ty t, spares => by
    unfold generic
    split
    · rename_i v lone
      exact obeys_ok fun _ later => (fills_loneVariable fits lone spares).mono (later.1.within_spoken strict)
    · exact Obeys.relayed ((obeys_ty fits t spares).bind fun _ _ _ given =>
        obeys_ok fun _ later => given.mono (later.1.within_spoken strict))

theorem obeys_generics {strict : Prop} {w : Moment} (fits : env.Fits R w.session) : (gs : List Source.Generic) →
    (strict → R.Spares (Source.Generic.allNames gs)) →
    (generics env gs).Obeys R owing
      (fun ts s => ts.length = gs.length ∧ ∀ t ∈ ts, t.Fills (R.spoken strict s)) w
  | [], _ => obeys_ok fun _ _ => ⟨rfl, nofun⟩
  | g :: gs, spares => by
    have split (held : strict) := List.forall_mem_append.mp (spares held)
    refine (obeys_generic fits g fun held => (split held).1).awaited.bind fun t w' leads first => ?_
    refine (obeys_generics (fits.later leads.1) gs fun held => (split held).2).bind fun ts w'' leads' given =>
      obeys_ok fun s later => ?_
    refine ⟨congrArg Nat.succ given.1, List.forall_mem_cons.mpr ⟨?_, fun u member => ?_⟩⟩
    · exact first.mono ((leads'.trans later).1.within_spoken strict)
    · exact (given.2 u member).mono (later.1.within_spoken strict)
end

end Annotations

end Rules

end Ownership
