import Ownership.Proofs.Growth
import Ownership.Proofs.Scene
import Ownership.Proofs.Traversals
import Ownership.Rules

namespace Ownership

namespace Source

def Perm.names : Perm → List String
  | .leased _ places => places.map (·.root.id)
  | _ => []

mutual
/-- The names by which a written term may come to mention a place, other than in `shared[...]`. -/
def Ty.names : Ty → List String
  | .named _ first _ generics => first.id :: Generic.allNames generics
  | .perm _ p t => p.names ++ t.names
  | .tuple _ elements => Ty.allNames elements

def Ty.allNames : List Ty → List String
  | [] => []
  | t :: ts => t.names ++ Ty.allNames ts

def Generic.names : Generic → List String
  | .ty t => t.names
  | .perm p => p.names

def Generic.allNames : List Generic → List String
  | [] => []
  | g :: gs => g.names ++ Generic.allNames gs
end

mutual
/-- The names in the generic arguments of an expression. -/
def Expr.written : Expr → List String
  | .bracket _ owner args => owner.written ++ Generic.allNames args
  | .tuple _ elements => Expr.allWritten elements
  | .binary _ _ _ left right => left.written ++ right.written
  | .assign _ place value => place.written ++ value.written
  | .dot _ owner _ => owner.written
  | .call _ owner args => owner.written ++ Expr.allWritten args
  | .returnValue _ value => value.written
  | .await _ future _ => future.written
  | .unary _ _ _ operand => operand.written
  | .cond _ arms => Arm.allWritten arms
  | .permissionOp _ _ value => value.written
  | .block _ b => b.written
  | .literal .. => []
  | .id .. => []
  | .returnUnit _ => []

def Expr.allWritten : List Expr → List String
  | [] => []
  | e :: es => e.written ++ Expr.allWritten es

def Arm.written : Arm → List String
  | .when condition body => condition.written ++ body.written
  | .otherwise body => body.written

def Arm.allWritten : List Arm → List String
  | [] => []
  | a :: as => a.written ++ Arm.allWritten as

def Block.written : Block → List String
  | .nil => []
  | .tail value => value.written
  | .letVar _ _ rest => rest.written
  | .letInit _ _ initializer rest => initializer.written ++ rest.written
  | .statement _ e rest => e.written ++ rest.written
end

theorem Expr.allWritten_eq (es : List Expr) : Expr.allWritten es = es.flatMap Expr.written := by
  induction es with
  | nil => rfl
  | cons e es ih => rw [Expr.allWritten, ih, List.flatMap_cons]

end Source

/-- Copy and move are asked of a lease by way of the types of its places. -/
def Predicate.Inspects : Predicate → Prop
  | .copy => True
  | .move => True
  | .owned => False
  | .lent => False

theorem Variable.place_of_none (v : Variable) : False → v.kind = .place := False.elim

structure Regime where
  placeArguments : Prop
  /-- The variables that nothing leases from before they have a type. -/
  awaited : Variable → Prop
  /-- The places that no generic argument in an expression mentions, other than in `shared[...]`. -/
  barred : Variable → Prop
  /-- The names under which barred places are in scope. -/
  guarded : String → Prop
  level : Variable → Option Universe
  places_barred : ∀ v, barred v → v.kind = .place

namespace Session

def universeOf (s : Session) (v : Variable) : Universe := (s.universes.lookup v).getD .root

def Types (s : Session) (v : Variable) : Prop := (s.variableTys.lookup v).isSome = true

end Session

namespace Regime

variable (R : Regime)

def Lax : Prop := ∀ v, ¬ R.awaited v

def Settled (s : Session) (v : Variable) : Prop := ∀ U, R.level v = some U → s.universeOf v = U

def Ready (s : Session) (v : Variable) : Prop := R.Settled s v ∧ ¬ R.barred v

def Admits (s : Session) (v : Variable) : Prop := R.Settled s v ∧ (R.awaited v → s.Types v)

def Free (v : Variable) : Prop := ¬ R.awaited v ∧ R.level v = none

def Spares (names : List String) : Prop := ∀ name ∈ names, ¬ R.guarded name

variable {R} in
theorem Free.admits {v : Variable} (free : R.Free v) (s : Session) : R.Admits s v :=
  ⟨fun _ laid => absurd (free.2.symm.trans laid) nofun, fun waits => absurd waits free.1⟩

def lexicon (s : Session) : Lexicon where
  infer k i := ∃ v, s.inferVars[i]? = some v ∧ v.kind = k
  var := R.Admits s
  shown := R.Settled s
  places := R.placeArguments

/-- What a term may mention when it is asked whether it satisfies the predicate. -/
def asked (p : Predicate) (s : Session) : Lexicon :=
  { R.lexicon s with var := fun v => R.Settled s v ∧ (p.Inspects → R.awaited v → s.Types v) }

/-- What generic arguments may mention; they do not mention barred places when they are strict. -/
def spoken (strict : Prop) (s : Session) : Lexicon :=
  { R.lexicon s with var := fun v => R.Admits s v ∧ (strict → ¬ R.barred v) }

def declared (parameter shown : Variable → Prop) : Lexicon where
  infer _ _ := False
  var := parameter
  shown := shown
  places := R.placeArguments

theorem lexicon_within_asked (p : Predicate) (s : Session) : (R.lexicon s).Within (R.asked p s) :=
  ⟨fun _ _ => id, fun _ admits => ⟨admits.1, fun _ => admits.2⟩, fun _ => id, id⟩

theorem asked_within_lexicon {p : Predicate} (inspects : p.Inspects) (s : Session) :
    (R.asked p s).Within (R.lexicon s) :=
  ⟨fun _ _ => id, fun _ admits => ⟨admits.1, admits.2 inspects⟩, fun _ => id, id⟩

theorem spoken_within_lexicon (strict : Prop) (s : Session) : (R.spoken strict s).Within (R.lexicon s) :=
  ⟨fun _ _ => id, fun _ => And.left, fun _ => id, id⟩

theorem lexicon_within_sharing (s : Session) : (R.lexicon s).Within (R.lexicon s).sharing :=
  Lexicon.within_sharing fun _ => And.left

end Regime

def Violation.Allowed (R : Regime) : Violation → Prop
  | .placeQuery _ _ => R.placeArguments
  | .placeRequirement _ _ => R.placeArguments
  | .untypedVariable v => ¬ R.awaited v
  | _ => True

def Failure.Allowed (R : Regime) : Failure → Prop
  | .reported _ => True
  | .violated v => v.Allowed R

theorem Violation.IsMisfit.allowed {R : Regime} {v : Violation} (misfit : v.IsMisfit) : v.Allowed R := by
  cases v with
  | expected wanted found => trivial
  | _ => exact misfit.elim

def Signature.Mentions (R : Regime) (s : Signature) (own : Variable → Prop) (v : Variable) : Prop :=
  v ∈ s.generics ∨ v ∈ s.inputs ∧ own v ∨ v ∉ s.inputs ∧ R.Free v

/-- What the types of a signature may mention: in `shared[...]` every input, elsewhere those given. -/
def Signature.terms (R : Regime) (s : Signature) (own : Variable → Prop) : Lexicon :=
  R.declared (s.Mentions R own) (s.Mentions R fun _ => True)

def Signature.Own (R : Regime) (s : Signature) (k : Nat) (v : Variable) : Prop :=
  R.Lax ∨ ∀ j, s.inputs[j]? = some v → j = k

/-- Unless the regime is lax, an input type leases from no input but its own, the clauses that require copy
or move lease from none, and no generic argument leases from one. -/
structure Signature.Fits (R : Regime) (s : Signature) : Prop where
  types : s.types.In (fun k => s.terms R (s.Own R k)) (s.terms R fun _ => True)
    fun p => s.terms R fun _ => R.Lax ∨ ¬ p.Inspects
  apart : R.Lax ∨ s.generics = [] ∨ ∀ v ∈ s.inputs, R.barred v

def Function.Fits (R : Regime) (f : Function) : Prop := EndsIn (Signature.Fits R) (Failure.Allowed R) f.signature

def Field.Declares (R : Regime) (f : Field) (t : Ty) : Prop :=
  t.In (R.declared (fun v => v ∈ f.owner.generics ∨ R.Free v) fun v => v ∈ f.owner.generics ∨ R.Free v)

inductive Entity.Contains : Entity → Entity → Prop where
  | self (e : Entity) : Contains e e
  | item {name : String} {span : Span} {items : List (String × Entity)} {entry : String × Entity}
    {e : Entity} (listed : entry ∈ items) (inner : Contains entry.2 e) :
    Contains (.module name span items) e

def Entity.Fits (R : Regime) (s : Session) : Entity → Prop
  | .var v => R.Admits s v
  | .function f => f.Fits R
  | .aggregate a => R.placeArguments ∨ ∀ v ∈ a.generics, v.kind ≠ .place
  | _ => True

def Entity.AllFit (R : Regime) (s : Session) (e : Entity) : Prop := ∀ e', e.Contains e' → e'.Fits R s

def Scope.Fits (R : Regime) (s : Session) (scope : Scope) : Prop :=
  ∀ group ∈ scope, ∀ entry ∈ group, entry.2.AllFit R s ∧ ∀ v, entry.2 = .var v → R.barred v → R.guarded entry.1

structure Resolution.Fits (R : Regime) (s : Session) (r : Resolution) : Prop where
  entity : r.entity.AllFit R s
  generics : ∀ t ∈ r.generics, t.Fills (R.spoken True s)

structure Env.Fits (R : Regime) (s : Session) (env : Env) : Prop where
  scope : env.scope.Fits R s
  returnTy : ∀ t, env.returnTy = some t → t.In (R.lexicon s)

theorem Env.Fits.fork {R : Regime} {s : Session} {env : Env} (h : env.Fits R s) : env.fork.Fits R s :=
  ⟨h.scope, h.returnTy⟩

def Core.PlaceExpr.Fits (L : Lexicon) : Core.PlaceExpr → Prop
  | .var _ ty v => ty.In L ∧ L.var v
  | .field _ ty owner _ => ty.In L ∧ owner.Fits L
  | .error _ => True

def Found.Fits (R : Regime) (s : Session) : Found → Prop
  | .place p => p.Fits (R.lexicon s)
  | .value e => e.ty.In (R.lexicon s)
  | .method self _ f generics => self.ty.In (R.lexicon s) ∧ f.Fits R ∧
    ∀ gs, generics = some gs → R.Spares (Source.Generic.allNames gs)
  | .name r => r.Fits R s

def Finding.Fits (R : Regime) (f : Finding) (s : Session) : Prop := f.found.Fits R s

def Argument.Fits (R : Regime) (s : Session) : Argument → Prop
  | .self e => e.ty.In (R.lexicon s)
  | .expr e => R.Spares e.written

def Goal.Fits (R : Regime) (s : Session) {shape : Shape} : Goal shape → Prop
  | .holds _ p t => t.In (R.asked p s)
  | .tyHolds _ p t => t.In (R.asked p s)
  | .permHolds _ p q => q.In (R.asked p s)
  | .refuted _ p t => t.In (R.asked p s)
  | .tyRefuted _ _ t => t.In (R.lexicon s)
  | .permRefuted _ _ q => q.In (R.lexicon s)
  | .placeHolds _ _ place => place.In (R.lexicon s)
  | .placeRefuted _ _ place => place.In (R.lexicon s)
  | .inferHolds .. => True
  | .attempt _ _ _ _ l u _ => l.In (R.lexicon s) ∧ u.In (R.lexicon s)
  | .contend _ _ _ _ l u _ => l.In (R.lexicon s) ∧ u.In (R.lexicon s)
  | .require _ p t _ => t.In (R.asked p s)
  | .establish _ p t _ => t.In (R.asked p s)
  | .establishTy _ p t _ => t.In (R.asked p s)
  | .establishPerm _ p q _ => q.In (R.asked p s)
  | .establishUnless _ p other t _ => other.In (R.asked p s) ∧ t.In (R.asked p s)
  | .establishCopyPlace _ place _ => place.In (R.lexicon s)
  | .establishMovePlace _ place _ => place.In (R.lexicon s)
  | .subTerms _ l u _ => l.Fills (R.lexicon s) ∧ u.Fills (R.lexicon s)
  | .subTys _ l u _ => l.In (R.lexicon s) ∧ u.In (R.lexicon s)
  | .subPerms _ l u _ => l.In (R.lexicon s) ∧ u.In (R.lexicon s)
  | .subPermsOfHeads _ l u _ => l.perm.In (R.lexicon s) ∧ u.perm.In (R.lexicon s)
  | .subHeads _ l u _ => l.toTy.In (R.lexicon s) ∧ u.toTy.In (R.lexicon s)
  | .equalTys _ a b _ => a.In (R.lexicon s) ∧ b.In (R.lexicon s)
  | .postEqualTys _ a b _ => a.In (R.lexicon s) ∧ b.In (R.lexicon s)
  | .addLowerBound _ i t _ => t.Bounds (R.lexicon s) i
  | .addUpperBound _ i t _ => t.Bounds (R.lexicon s) i
  | .checkFacts .. => True
  | .numeric _ t _ => t.In (R.lexicon s)
  | .future _ t awaited _ => t.In (R.lexicon s) ∧ awaited.In (R.lexicon s)
  | .futureHead _ t awaited _ => t.In (R.lexicon s) ∧ awaited.In (R.lexicon s)
  | .body env e expected => env.Fits R s ∧ R.Spares e.written ∧ ∀ t, expected = some t → t.In (R.lexicon s)
  | .fieldTy _ owner _ => owner.In (R.lexicon s)
  | .lowerBound .. => True
  | .evidence .. => True
  | .expr env e => env.Fits R s ∧ R.Spares e.written
  | .argument env a v inputTy =>
    env.Fits R s ∧ a.Fits R s ∧ R.Ready s v ∧ inputTy.In ((R.lexicon s).adding (· = v))
  | .member _ owner ownerTy t _ _ =>
    owner.Fits R s ∧ ownerTy.In (R.lexicon s) ∧ t.In (R.lexicon s)

def Goal.Gives (R : Regime) {shape : Shape} : Goal shape → shape.Value → Session → Prop
  | .fieldTy .., t, s => t.In (R.lexicon s)
  | .lowerBound _ i, found, s => ∀ b, found = some b → b.term.Bounds (R.lexicon s) i
  | .evidence _ i _, known, s => ∀ b, known = .bounded b → b.term.Bounds (R.lexicon s) i
  | .expr .., f, s => f.Fits R s
  | .argument _ _ v _, f, s => f.Fits R s ∧ s.Types v
  | .member .., f, s => f.Fits R s
  | _, _, _ => True

/-- What is known of an inference variable is coherent, its bounds keep to the regime and mention only
variables it can see, and only a type has a default. -/
structure InferVar.Fits (R : Regime) (s : Session) (v : InferVar) : Prop where
  coherent : v.Coherent
  bounds : ∀ b ∈ v.bounds, b.term.In (R.lexicon s) ∧
    ∀ u ∈ b.term.occurrences, ∀ U, R.level u = some U → v.home.canSee U = true
  default : ∀ d, v.fallback = some d → v.kind = .type ∧ ∃ env o, d = .numeric env o

namespace Regime

variable (R : Regime) {s s' s'' : Session}

structure Sound (s : Session) : Prop where
  vars : ∀ (i : InferIndex) (v : InferVar), s.inferVars[i]? = some v → v.Fits R s
  mirrored : s.Mirrored
  types : ∀ v t, s.variableTys.lookup v = some t → t.In (R.lexicon s)
  fields : ∀ f t, s.program.fieldTy f = some t → f.Declares R t
  members : ∀ a name f, s.program.member a name = some (.function f) → f.Fits R
  unused : ∀ v : Variable, s.nextSymbol ≤ v.id → R.Ready s v

structure Later (s s' : Session) : Prop where
  grows : s.Grows s'
  types : ∀ v, s.Types v → s'.Types v
  levels : ∀ v, R.Settled s v → R.Settled s' v

def Leads (s s' : Session) : Prop := R.Later s s' ∧ R.Sound s'

variable {R}

theorem Later.refl (s : Session) : R.Later s s := ⟨.refl s, fun _ => id, fun _ => id⟩

theorem Later.trans (first : R.Later s s') (second : R.Later s' s'') : R.Later s s'' where
  grows := first.grows.trans second.grows
  types v known := second.types v (first.types v known)
  levels v known := second.levels v (first.levels v known)

theorem Leads.refl (sound : R.Sound s) : R.Leads s s := ⟨.refl s, sound⟩

theorem Leads.trans (first : R.Leads s s') (second : R.Leads s' s'') : R.Leads s s'' :=
  ⟨first.1.trans second.1, second.2⟩

namespace Later

variable (later : R.Later s s')
include later

theorem ready {v : Variable} (ready : R.Ready s v) : R.Ready s' v :=
  ⟨later.levels v ready.1, ready.2⟩

theorem admits {v : Variable} (admits : R.Admits s v) : R.Admits s' v :=
  ⟨later.levels v admits.1, fun waits => later.types v (admits.2 waits)⟩

theorem within : (R.lexicon s).Within (R.lexicon s') where
  infer k i := by
    rintro ⟨v, found, rfl⟩
    obtain ⟨v', found', grows⟩ := later.grows i v found
    exact ⟨v', found', grows.kind⟩
  var _ := later.admits
  shown := later.levels
  places := id

theorem within_asked (p : Predicate) : (R.asked p s).Within (R.asked p s') :=
  ⟨later.within.infer, fun v known => ⟨later.levels v known.1, fun inspects waits =>
    later.types v (known.2 inspects waits)⟩, later.levels, id⟩

theorem within_spoken (strict : Prop) : (R.spoken strict s).Within (R.spoken strict s') :=
  ⟨later.within.infer, fun _ => And.imp_left later.admits, later.levels, id⟩

end Later

end Regime

section Lasting

variable {R : Regime} {s s' : Session}
variable {L : Lexicon} {p : Core.PlaceExpr}

theorem Core.PlaceExpr.Fits.mono {M : Lexicon} (h : p.Fits L) (within : L.Within M) : p.Fits M := by
  induction p with
  | var span ty v => exact ⟨h.1.mono within, within.var v h.2⟩
  | field span ty owner f ih => exact ⟨h.1.mono within, ih h.2⟩
  | error r => trivial

theorem Core.PlaceExpr.Fits.ty (h : p.Fits L) : p.ty.In L := by
  cases p with
  | var span ty v | field span ty owner f => exact h.1
  | error r => trivial

theorem Core.PlaceExpr.Fits.toPlace (h : p.Fits L) : p.toPlace.In L := by
  induction p with
  | var span ty v => exact h.2
  | field span ty owner f ih => exact ih h.2
  | error r => trivial

variable (more : R.Later s s')
include more

theorem Entity.Fits.later {e : Entity} (h : e.Fits R s) : e.Fits R s' := by
  cases e with
  | var v => exact more.admits h
  | _ => exact h

theorem Entity.AllFit.later {e : Entity} (h : e.AllFit R s) : e.AllFit R s' :=
  fun e' contained => (h e' contained).later more

theorem Resolution.Fits.later {r : Resolution} (h : r.Fits R s) : r.Fits R s' :=
  ⟨h.entity.later more, fun t member => (h.generics t member).mono (more.within_spoken True)⟩

theorem Env.Fits.later {env : Env} (h : env.Fits R s) : env.Fits R s' :=
  ⟨fun group listed entry member => (h.scope group listed entry member).imp_left (·.later more),
    fun t known => (h.returnTy t known).mono more.within⟩

theorem Finding.Fits.later {f : Finding} (h : f.Fits R s) : f.Fits R s' := by
  obtain ⟨temporaries, span, found⟩ := f
  cases found with
  | place p => exact Core.PlaceExpr.Fits.mono h more.within
  | value e => exact Ty.In.mono more.within h
  | method self idSpan f generics => exact ⟨h.1.mono more.within, h.2⟩
  | name r => exact Resolution.Fits.later more h

theorem Argument.Fits.later {a : Argument} (h : a.Fits R s) : a.Fits R s' := by
  cases a with
  | self e => exact Ty.In.mono more.within h
  | expr e => exact h

theorem InferVar.Fits.later {v : InferVar} (h : v.Fits R s) : v.Fits R s' where
  coherent := h.coherent
  bounds b member := ⟨(h.bounds b member).1.mono more.within, (h.bounds b member).2⟩
  default := h.default

theorem Goal.Fits.later {shape : Shape} {g : Goal shape} (h : g.Fits R s) : g.Fits R s' := by
  have within := more.within
  cases g with
  | holds env p t | refuted env p t | require env p t o | establish env p t o =>
    exact Term.In.mono (more.within_asked p) h
  | tyHolds env p t | establishTy env p t o => exact Ty.In.mono (more.within_asked p) h
  | permHolds env p q | establishPerm env p q o => exact Perm.In.mono (more.within_asked p) h
  | establishUnless env p other t o => exact ⟨h.1.mono (more.within_asked p), h.2.mono (more.within_asked p)⟩
  | tyRefuted env p t | numeric env t o | fieldTy env owner f => exact Ty.In.mono within h
  | permRefuted env p q => exact Perm.In.mono within h
  | placeHolds env p place | placeRefuted env p place | establishCopyPlace env place o
  | establishMovePlace env place o => exact Place.In.mono within h
  | inferHolds env i p | checkFacts env i | lowerBound env i | evidence env i p => trivial
  | attempt env search node p lower upper o | contend env search node p lower upper o | subTerms env lower upper o
  | subTys env lower upper o | subPerms env lower upper o | subPermsOfHeads env lower upper o
  | subHeads env lower upper o | equalTys env a b o | postEqualTys env a b o
  | future env t awaited o | futureHead env t awaited o =>
    exact ⟨h.1.mono within, h.2.mono within⟩
  | addLowerBound env i t o | addUpperBound env i t o => exact Term.Bounds.mono within h
  | body env e expected => exact ⟨h.1.later more, h.2.1, fun t known => (h.2.2 t known).mono within⟩
  | expr env e => exact ⟨h.1.later more, h.2⟩
  | argument env a v inputTy =>
    obtain ⟨env, argument, ready, input⟩ := h
    exact ⟨env.later more, argument.later more, more.ready ready, input.mono (within.adding (· = v))⟩
  | member env owner ownerTy t name span =>
    exact ⟨h.1.later more, h.2.1.mono within, h.2.2.mono within⟩

theorem Goal.Gives.later {shape : Shape} {g : Goal shape} {v : shape.Value} (h : g.Gives R v s) : g.Gives R v s' := by
  have within := more.within
  cases g with
  | fieldTy env owner f => exact Ty.In.mono within h
  | lowerBound env i | evidence env i p => exact fun b known => (h b known).mono within
  | expr env e | member env owner ownerTy t name span => exact Finding.Fits.later more h
  | argument env a v inputTy => exact ⟨h.1.later more, more.types _ h.2⟩
  | _ => trivial

end Lasting

namespace Session

structure Akin (s s' : Session) : Prop where
  inferVars : s'.inferVars = s.inferVars
  variableTys : s'.variableTys = s.variableTys
  universes : s'.universes = s.universes
  program : s'.program = s.program
  nextSymbol : s'.nextSymbol = s.nextSymbol

variable {s s' s'' : Session}

theorem Akin.refl (s : Session) : s.Akin s := ⟨rfl, rfl, rfl, rfl, rfl⟩

theorem Akin.trans (first : s.Akin s') (second : s'.Akin s'') : s.Akin s'' where
  inferVars := second.inferVars.trans first.inferVars
  variableTys := second.variableTys.trans first.variableTys
  universes := second.universes.trans first.universes
  program := second.program.trans first.program
  nextSymbol := second.nextSymbol.trans first.nextSymbol

theorem Alike.akin (alike : s.Alike s') : s.Akin s' := by
  obtain ⟨_, _, _, _, rfl⟩ := alike
  exact ⟨rfl, rfl, rfl, rfl, rfl⟩

end Session

namespace Regime

variable {R : Regime} {s s' : Session}

theorem Sound.regrow (sound : R.Sound s) (grows : s.Grows s') (variableTys : s'.variableTys = s.variableTys)
    (universes : s'.universes = s.universes) (program : s'.program = s.program)
    (nextSymbol : s'.nextSymbol = s.nextSymbol) (mirrored : s'.Mirrored)
    (vars : R.Later s s' → ∀ (i : InferIndex) (v : InferVar), s'.inferVars[i]? = some v → v.Fits R s') :
    R.Leads s s' := by
  have sameUniverse (v : Variable) : s'.universeOf v = s.universeOf v := by
    rw [Session.universeOf, Session.universeOf, universes]
  have later : R.Later s s' := by
    refine ⟨grows, fun v typed => ?_, fun v settled U laid => (sameUniverse v).trans (settled U laid)⟩
    rwa [Session.Types, variableTys]
  refine ⟨later, vars later, mirrored, fun v t known => ?_, fun f t known => ?_, fun a name f known => ?_,
    fun v new => ?_⟩
  · rw [variableTys] at known
    exact (sound.types v t known).mono later.within
  · rw [program] at known
    exact sound.fields f t known
  · rw [program] at known
    exact sound.members a name f known
  · rw [nextSymbol] at new
    exact later.ready (sound.unused v new)

theorem Sound.carry (sound : R.Sound s) (more : R.Later s s') (inferVars : s'.inferVars = s.inferVars)
    (program : s'.program = s.program) (nextSymbol : s.nextSymbol ≤ s'.nextSymbol)
    (types : ∀ v t, s'.variableTys.lookup v = some t → t.In (R.lexicon s')) : R.Leads s s' := by
  refine ⟨more, fun i v found => ?_, sound.mirrored.of_same inferVars, types, fun f t known => ?_,
    fun a name f known => ?_, fun v new => more.ready (sound.unused v (nextSymbol.trans new))⟩
  · rw [inferVars] at found
    exact (sound.vars i v found).later more
  · rw [program] at known
    exact sound.fields f t known
  · rw [program] at known
    exact sound.members a name f known

theorem Sound.akin (sound : R.Sound s) (akin : s.Akin s') : R.Leads s s' := by
  refine sound.regrow (.of_same akin.inferVars) akin.variableTys akin.universes akin.program akin.nextSymbol
    (sound.mirrored.of_same akin.inferVars) fun later i v found => ?_
  rw [akin.inferVars] at found
  exact (sound.vars i v found).later later

theorem Sound.bounds (sound : R.Sound s) {i : InferIndex} {v : InferVar} {b : Bound}
    (found : s.inferVars[i]? = some v) (bound : b ∈ v.bounds) : b.term.Bounds (R.lexicon s) i := by
  have fits := sound.vars i v found
  obtain ⟨kind, bounded⟩ := fits.coherent.kinds b bound
  have keeps := (fits.bounds b bound).1
  cases same : b.term with
  | ty t | perm p =>
    rw [same] at kind keeps
    exact ⟨keeps, v, found, (Option.some.inj kind).symm⟩
  | place p =>
    rw [same] at kind
    exact absurd (Option.some.inj kind).symm bounded
  | error r =>
    rw [same] at kind
    cases kind

theorem Sound.bounds_lower (sound : R.Sound s) {i : InferIndex} {v : InferVar} {b : Bound}
    (found : s.inferVars[i]? = some v) (known : v.lower = some b) : b.term.Bounds (R.lexicon s) i :=
  sound.bounds found (InferVar.mem_bounds_of_lower known)

def contract (R : Regime) : Contract where
  Sound w := R.Sound w.session
  Later w w' := R.Later w.session w'.session
  Post _ g _ r w := EndsIn (fun v => g.Gives R v w.session) (Failure.Allowed R) r
  Debt := Empty
  Owed _ _ := False
  Paid _ _ := True
  Waits := True
  later_refl w := .refl w.session
  later_trans := .trans
  post_later post later := post.imp fun _ given => given.later later
  paid_later paid _ := paid
  alike alike sound := by
    obtain ⟨later, sound⟩ := Sound.akin sound alike.akin
    exact ⟨sound, later⟩
  owed_alike _ owed := owed

abbrev asks (R : Regime) : Asks := fun _ g w => g.Fits R w.session

end Regime

namespace Action

variable {R : Regime} {α β : Type} {G : α → Session → Prop} {H : β → Session → Prop} {s : Session}

def Obeys (R : Regime) (G : α → Session → Prop) (a : Action α) (s : Session) : Prop :=
  R.Leads s (a.exec s).2 ∧ EndsIn (fun x => G x (a.exec s).2) (Failure.Allowed R) (a.exec s).1

theorem obeys_pure {x : α} (sound : R.Sound s) (h : G x s) : (pure x : Action α).Obeys R G s :=
  ⟨.refl sound, h⟩

theorem obeys_throw {e : Failure} (sound : R.Sound s) (allowed : e.Allowed R) :
    (throw e : Action α).Obeys R G s := ⟨.refl sound, allowed⟩

variable {a : Action α}

theorem Obeys.bind {f : α → Action β} (h : a.Obeys R G s)
    (next : ∀ x s', R.Leads s s' → G x s' → (f x).Obeys R H s') : (a >>= f).Obeys R H s := by
  obtain ⟨leads, ends⟩ := h
  unfold Obeys
  rw [exec_bind]
  rcases exec : a.exec s with ⟨r, s'⟩
  rw [exec] at leads ends
  cases r with
  | ok x =>
    obtain ⟨leads', ends'⟩ := next x s' leads ends
    exact ⟨leads.trans leads', ends'⟩
  | error e => exact ⟨leads, ends⟩

theorem Obeys.imp {G' : α → Session → Prop} (h : a.Obeys R G s)
    (imp : ∀ x s', R.Leads s s' → G x s' → G' x s') : a.Obeys R G' s :=
  ⟨h.1, h.2.imp fun x given => imp x _ h.1 given⟩

abbrev Neutral (a : Action α) : Prop := a.Within Session.Akin

theorem Neutral.bind {f : α → Action β} (first : a.Neutral) (next : ∀ x, (f x).Neutral) :
    (a >>= f).Neutral := Within.bind .trans first next

theorem Neutral.obeys (neutral : a.Neutral) (sound : R.Sound s)
    (ends : R.Leads s (a.exec s).2 → EndsIn (fun x => G x (a.exec s).2) (Failure.Allowed R) (a.exec s).1) :
    a.Obeys R G s :=
  have leads := sound.akin (neutral s)
  ⟨leads, ends leads⟩

theorem neutral_log (depth : Nat) (message : String) (values : List String) :
    (log depth message values).Neutral := fun s => (exec_log depth message values s).2.akin

theorem neutral_report (env : Env) (d : Diagnostic) : (report env d).Neutral :=
  (neutral_log _ _ _).bind fun _ _ => ⟨rfl, rfl, rfl, rfl, rfl⟩

theorem neutral_refuse (env : Env) (o : Obligation) (because : Because) :
    (refuse env o because : Action α).Neutral := by
  intro s
  obtain ⟨_, _, same⟩ := exec_refuse (α := α) env o because s
  rw [same]
  exact ⟨rfl, rfl, rfl, rfl, rfl⟩

theorem exec_report (env : Env) (d : Diagnostic) (s : Session) : ∃ r s', (report env d).exec s = (.ok r, s') := by
  simp only [report, exec_bind]
  exact ⟨_, _, rfl⟩

variable (sound : R.Sound s)
include sound

theorem obeys_modify {f : Session → Session} (akin : s.Akin (f s)) :
    (modify f : Action Unit).Obeys R (fun _ _ => True) s := ⟨sound.akin akin, trivial⟩

theorem obeys_log (depth : Nat) (message : String) (values : List String) :
    (log depth message values).Obeys R (fun _ _ => True) s :=
  (neutral_log depth message values).obeys sound fun _ => trivial

theorem obeys_report (env : Env) (d : Diagnostic) : (report env d).Obeys R (fun _ _ => True) s := by
  refine (neutral_report env d).obeys sound fun _ => ?_
  obtain ⟨r, s', same⟩ := exec_report env d s
  rw [same]
  trivial

theorem obeys_reported {f : Report → α} (good : ∀ r s', G (f r) s') {env : Env} {d : Diagnostic} :
    (do return f (← report env d) : Action α).Obeys R G s :=
  (obeys_report sound env d).bind fun r s' leads _ => obeys_pure leads.2 (good r s')

theorem obeys_refuse (env : Env) (o : Obligation) (because : Because) :
    (refuse env o because : Action α).Obeys R G s := by
  refine (neutral_refuse env o because).obeys sound fun _ => ?_
  obtain ⟨_, _, same⟩ := exec_refuse (α := α) env o because s
  rw [same]
  trivial

theorem obeys_get : (get : Action Session).Obeys R (fun x s' => x = s') s := ⟨.refl sound, rfl⟩

theorem obeys_inferVar (i : InferIndex) : (inferVar i).Obeys R (fun v s' => s'.inferVars[i]? = some v) s := by
  unfold Obeys
  rw [exec_inferVar]
  refine ⟨.refl sound, ?_⟩
  cases found : s.inferVars[i]? with
  | none => trivial
  | some v => exact found

theorem obeys_forM {f : α → Action Unit} {as : List α}
    (each : ∀ a ∈ as, ∀ s', R.Leads s s' → (f a).Obeys R (fun _ _ => True) s') :
    (as.forM f).Obeys R (fun _ _ => True) s := by
  induction as generalizing s with
  | nil => exact obeys_pure sound trivial
  | cons a as ih =>
    refine (each a List.mem_cons_self s (.refl sound)).bind fun _ s' leads _ => ?_
    exact ih leads.2 fun b member s'' leads' => each b (List.mem_cons_of_mem _ member) s'' (leads.trans leads')

end Action

namespace Prog

variable {R : Regime} {owing : Prop} {α β : Type} {G G' : α → Session → Prop} {H : β → Session → Prop}
variable {p : Prog α} {w w' : Moment}

/-- The program keeps the regime whatever happens beside it, asks only what may be asked, and what it
answers is as it should be. -/
def Obeys (R : Regime) (owing : Prop) (G : α → Session → Prop) (p : Prog α) (w : Moment) : Prop :=
  p.Meets R.contract R.asks owing
    (fun r w' => EndsIn (fun a => G a w'.session) (Failure.Allowed R) r) w

abbrev Complies (R : Regime) (owing : Prop) (p : Prog α) (w : Moment) : Prop := p.Obeys R owing (fun _ _ => True) w

theorem Obeys.bind {f : α → Prog β} (h : p.Obeys R owing G w)
    (next : ∀ a w', R.Leads w.session w'.session → G a w'.session → (f a).Obeys R owing H w') :
    (p >>= f).Obeys R owing H w :=
  Meets.bind h (fun a w' leads given => next a w' leads given) fun _ _ _ => id

theorem Obeys.andThen {f : Except Failure α → Prog β} (h : p.Obeys R owing G w)
    (next : ∀ r (w' : Moment), R.Leads w.session w'.session →
      EndsIn (fun a => G a w'.session) (Failure.Allowed R) r → (f r).Obeys R owing H w') :
    (p.andThen f).Obeys R owing H w :=
  Meets.andThen (Meets.mono h fun r w' leads ends => next r w' leads ends)

theorem Obeys.imp (h : p.Obeys R owing G w)
    (imp : ∀ a (w' : Moment), R.Leads w.session w'.session → G a w'.session → G' a w'.session) : p.Obeys R owing G' w :=
  Meets.mono h fun _ w' leads ends => ends.imp fun a given => imp a w' leads given

theorem Obeys.of_leads (h : ∀ w', R.Leads w.session w'.session → p.Obeys R owing G w') :
    p.Obeys R owing G w := Meets.of_leads h

theorem obeys_done {r : Except Failure α} (h : ∀ s, R.Leads w.session s →
    EndsIn (fun a => G a s) (Failure.Allowed R) r) : (done r).Obeys R owing G w :=
  fun w' leads => h w'.session leads

theorem obeys_ok {a : α} (h : ∀ s, R.Leads w.session s → G a s) : (pure a : Prog α).Obeys R owing G w :=
  obeys_done h

theorem obeys_fail {e : Failure} (allowed : e.Allowed R) : (throw e : Prog α).Obeys R owing G w :=
  obeys_done fun _ _ => allowed

theorem obeys_violate {v : Violation} (allowed : v.Allowed R) : (violate v : Prog α).Obeys R owing G w :=
  obeys_done fun _ _ => allowed

theorem obeys_raise (r : Report) : (raise r : Prog α).Obeys R owing G w := obeys_done fun _ _ => trivial

theorem Obeys.awaited (h : p.Obeys R owing G w) : p.awaited.Obeys R owing G w := Meets.awaited h

theorem Obeys.relayed (h : p.Obeys R owing G w) : p.relayed.Obeys R owing G w := Meets.relayed h

theorem Obeys.traced {env : Env} {task result : String} {values : List String} {body : Env → Prog α}
    (h : (body env.fork).Obeys R owing G w) : (Prog.traced env task values result body).Obeys R owing G w :=
  Meets.traced h

theorem obeys_perform {a : Action α} (h : ∀ s, R.Leads w.session s → a.Obeys R G s)
    (lasts : ∀ {x s s'}, G x s → R.Later s s' → G x s') : (perform a).Obeys R owing G w := by
  refine Meets.perform fun w' leads => ?_
  obtain ⟨next, ends⟩ := h w'.session leads
  exact ⟨next, fun _ owed => owed, fun w'' later => ends.imp fun x given => lasts given later.1⟩

theorem obeys_log_bind {depth : Nat} {message : String} {values : List String} {f : Unit → Prog α}
    (h : (f ()).Obeys R owing G w) :
    (perform (Action.log depth message values) >>= f).Obeys R owing G w := Meets.log_bind h

theorem obeys_get_bind {f : Session → Prog α}
    (h : ∀ w', R.Leads w.session w'.session → (f w'.session).Obeys R owing G w') :
    (perform get >>= f).Obeys R owing G w := Meets.get_bind fun w' leads => h w' leads

theorem obeys_inferVar_bind {i : InferIndex} {f : InferVar → Prog α}
    (h : ∀ w' v, R.Leads w.session w'.session → w'.session.inferVars[i]? = some v → (f v).Obeys R owing G w') :
    (perform (Action.inferVar i) >>= f).Obeys R owing G w :=
  Meets.inferVar_bind (fun w' v leads found => h w' v leads found) fun _ _ => trivial

theorem obeys_refuse (env : Env) (o : Obligation) (because : Because) :
    (refuse env o because : Prog α).Obeys R owing G w := by
  refine Obeys.imp (G := fun _ _ => False) (obeys_perform (fun s leads => ?_) ?_) fun _ _ _ => False.elim
  · exact Action.obeys_refuse leads.2 env o because
  · exact fun given _ => given

theorem obeys_report (env : Env) (d : Diagnostic) : (perform (Action.report env d)).Complies R owing w :=
  obeys_perform (fun _ leads => Action.obeys_report leads.2 env d) fun _ _ => trivial

theorem obeys_reported {f : Report → α} (good : ∀ r s, G (f r) s) {env : Env} {d : Diagnostic} :
    (do return f (← Action.report env d) : Prog α).Obeys R owing G w :=
  (obeys_report env d).bind fun r _ _ _ => obeys_ok fun s _ => good r s

theorem obeys_lift {x : Except Violation α} (h : ∀ s, R.Leads w.session s →
    EndsIn (fun a => G a s) (Violation.Allowed R) x) : (liftM x : Prog α).Obeys R owing G w := by
  cases x with
  | ok a => exact obeys_ok h
  | error v => exact obeys_done fun s leads => h s leads

theorem obeys_wait (env : Env) (i : InferIndex) (enough : InferVar → Bool) : (wait env i enough).Complies R owing w :=
  fun _ _ => ⟨trivial, fun _ _ _ => trivial⟩

theorem obeys_forM {f : β → Prog Unit} {bs : List β}
    (each : ∀ b ∈ bs, ∀ w', R.Leads w.session w'.session → (f b).Complies R owing w') :
    (bs.forM f).Complies R owing w := by
  induction bs generalizing w with
  | nil => exact obeys_ok fun _ _ => trivial
  | cons b bs ih =>
    refine Obeys.bind (.of_leads (each b List.mem_cons_self)) fun _ w' leads _ => ih fun c member w'' leads' => ?_
    exact each c (List.mem_cons_of_mem _ member) w'' (leads.trans leads')

section Goals

variable {shape : Shape} {g : Goal shape}

theorem obeys_call (fits : g.Fits R w.session) (may : shape = .unit → owing) :
    (call g done).Obeys R owing (g.Gives R) w :=
  Meets.call fun _ leads => ⟨fits.later leads.1, may, fun _ _ _ post => post⟩

theorem obeys_ask (fits : g.Fits R w.session) (may : shape = .unit → owing) :
    (ask g).Obeys R owing (g.Gives R) w := Obeys.awaited (obeys_call fits may)

theorem obeys_relay (fits : g.Fits R w.session) (may : shape = .unit → owing) :
    (relay g).Obeys R owing (g.Gives R) w := Obeys.relayed (obeys_call fits may)

theorem obeys_post {env : Env} {description : String} {g : Env → Goal .unit}
    (fits : (g env.fork).Fits R w.session) : (post env description g).Complies R owing w :=
  ⟨fun _ leads => fits.later leads.1, fun _ _ => trivial⟩

end Goals

section Tests

theorem raceEnds_allowed {decisive : Bool} {asked : List (Goal .truth × Moment)} {r : Except Failure Bool}
    (ends : R.contract.RaceEnds decisive asked r w') : EndsIn (fun _ => True) (Failure.Allowed R) r := by
  cases r with
  | ok b => trivial
  | error e =>
    obtain ⟨_, _, post⟩ := ends
    exact post

variable {tests : List (Goal .truth)} (fits : ∀ g ∈ tests, g.Fits R w.session)
include fits

theorem obeys_race (decisive passed : Bool) : (race decisive passed tests done).Complies R owing w :=
  Meets.race fun _ leads => ⟨fun g member => (fits g member).later leads.1, fun _ _ _ ends =>
    raceEnds_allowed ends⟩

theorem obeys_raced (decisive : Bool) : (raced decisive tests).Complies R owing w :=
  Meets.raced fun _ leads => ⟨fun g member => (fits g member).later leads.1, fun _ _ _ ends =>
    raceEnds_allowed ends⟩

theorem obeys_combine (disjunctive : Bool) : (Rules.combine disjunctive tests).Complies R owing w := by
  unfold Rules.combine
  split
  · exact obeys_raced fits true
  · exact obeys_raced fits false

theorem obeys_contest (search : Nat) (some_ : tests ≠ []) : (contest search tests done).Complies R owing w := by
  refine fun w' leads => ⟨⟨trivial, some_⟩, fun g member => (fits g member).later leads.1,
    fun r w'' _ ends _ _ => ?_⟩
  cases r with
  | ok b => trivial
  | error e =>
    obtain ⟨_, _, post⟩ := ends
    exact post

end Tests

section Gatherings

theorem obeys_gather {shape : Shape} {groups : List (Session → List (Goal shape))}
    (fits : ∀ group ∈ groups, ∀ s, R.Leads w.session s → ∀ g ∈ group s, g.Fits R s) :
    (gather groups done).Complies R owing w := by
  refine Meets.gather ?_
  have gathers (asked : List (Goal shape × Moment)) :
      R.contract.Gathers R.asks (fun r w' => EndsIn (fun _ => True) (Failure.Allowed R) r) groups asked w := by
    induction groups generalizing asked w with
    | nil =>
      intro r w' _ ends
      cases r with
      | ok vs => trivial
      | error e =>
        obtain ⟨_, _, post⟩ := ends
        exact post
    | cons group groups ih =>
      refine fun w' leads => ⟨fits group List.mem_cons_self w'.session leads, ih (fun group member s leads' => ?_) _⟩
      exact fits group (List.mem_cons_of_mem _ member) s (Regime.Leads.trans leads leads')
  exact gathers []

theorem obeys_eachGroup {groups : List (Session → List (Goal .unit))}
    (fits : ∀ group ∈ groups, ∀ s, R.Leads w.session s → ∀ g ∈ group s, g.Fits R s) :
    (eachGroup groups).Complies R owing w :=
  (obeys_gather fits).bind fun _ _ _ _ => obeys_ok fun _ _ => trivial

variable {goals : List (Goal .unit)}

theorem obeys_each (fits : ∀ g ∈ goals, g.Fits R w.session) : (each goals).Complies R owing w := by
  refine obeys_eachGroup fun group member s leads g listed => ?_
  rw [List.mem_singleton.mp member] at listed
  exact (fits g listed).later leads.1

theorem obeys_eachBesides (fits : ∀ g ∈ goals, g.Fits R w.session) : (eachBesides goals).Complies R owing w := by
  unfold eachBesides
  split
  · exact fun _ _ => trivial
  · exact obeys_each fits

theorem obeys_gathered {shape : Shape} {goals : List (Goal shape)} (fits : ∀ g ∈ goals, g.Fits R w.session) :
    (gathered goals).Obeys R owing (fun vs s => List.Forall₂ (fun g v => g.Gives R v s) goals vs) w := by
  refine Meets.gather fun w' leads => ⟨fun g member => (fits g member).later leads.1, fun r w'' _ ends => ?_⟩
  rw [List.nil_append] at ends
  cases r with
  | ok vs =>
    change List.Forall₂ _ (goals.map (·, w')) vs at ends
    rwa [List.forall₂_map_left_iff] at ends
  | error e =>
    obtain ⟨_, _, post⟩ := ends
    exact post

end Gatherings

end Prog

end Ownership
