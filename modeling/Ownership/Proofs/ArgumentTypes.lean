import Ownership.Proofs.Sessions

namespace Ownership

open Relation (ReflTransGen)

/-- Nothing leases from a variable that a session makes before it has a type; no generic argument in a
source mentions, by one of the names and other than in `shared[...]`, a captured place. -/
def Regime.timely (first : Nat) (captured : Variable → Prop) (names : String → Prop) : Regime where
  placeArguments := True
  awaited v := first ≤ v.id
  barred v := v.kind = .place ∧ captured v
  guarded := names
  level _ := none
  places_barred _ := And.left

namespace World

/-- The clauses that require copy or move lease from no input of their signature, and an input type leases
from no other input; in `shared[...]` and in the other clauses they mention what they like. Then no
variable of a session is looked up before it has a type, in whatever order the events of the session are
handled. A generic function is called with arguments that do not mention its own inputs, which is a
condition on its own body only: elsewhere they are not in scope. -/
theorem made_variables_typed_in_time {β : Type} {w : World} {captured : Variable → Prop} {names : String → Prop}
    (fits : w.Fits (.timely w.nextSymbol captured names)) {v : Variable} (made : w.nextSymbol ≤ v.id) :
    (∀ σ : Stage β,
        ReflTransGen (Stage.Proceeds (.timely w.nextSymbol captured names)) ⟨{ session := w.session }, []⟩ σ →
        .violated (.untypedVariable v) ∉ σ.machine.failures ∧
          ∀ slot, (slot, .error (.violated (.untypedVariable v))) ∉ σ.machine.results) ∧
      (∀ e : Source.Expr, (∀ name ∈ e.written, ¬ names name) →
        w.checkExpression e ≠ .error (.violated (.untypedVariable v))) ∧
      ∀ f : Function, f.Fits (.timely w.nextSymbol captured names) →
        (∀ sig, f.signature = .ok sig → ∀ u, u ∈ sig.generics ∨ u ∈ sig.inputs →
          u.id < w.nextSymbol ∧ (captured u → ∀ name, u.name = some name → names name)) →
        ∀ e : Source.Expr, (∀ name ∈ e.written, ¬ names name) →
          w.checkFunctionBody f e ≠ .error (.violated (.untypedVariable v)) := by
  have late (allowed : Failure.Allowed (.timely w.nextSymbol captured names) (.violated (.untypedVariable v))) :
      False := allowed made
  refine ⟨fun σ reached => ?_, fun e spares failed => ?_, fun f declared own e spares failed => ?_⟩
  · obtain ⟨under, _⟩ := (Stage.under_idle [] fits.begins.sound).run reached
    exact ⟨fun failed => late (under.failures failed), fun slot told => late (under.results told)⟩
  · have ends := ends_checkExpression fits spares
    rw [failed] at ends
    exact late ends
  · have bindable (sig : Signature) (found : f.signature = .ok sig) (u : Variable)
        (listed : u ∈ sig.generics ∨ u ∈ sig.inputs) : Bindable (.timely w.nextSymbol captured names) u := by
      obtain ⟨old, guards⟩ := own sig found u listed
      exact ⟨⟨Nat.not_le.mpr old, rfl⟩, fun barred => guards barred.2⟩
    have ends := ends_checkFunctionBody fits declared bindable spares
    rw [failed] at ends
    exact late ends

/-- `class Crate { full: bool }` -/
def crate : Aggregate := ⟨8, "Crate", .classDecl, [], default⟩

def full : Field := ⟨9, "full", crate, default⟩

/-- `fn mk() -> Crate` -/
def makeCrate : Function where
  id := 10
  name := "mk"
  span := default
  hasSelf := false
  signature := .ok { generics := [], ownGenerics := [], inputs := [], types := ⟨[], .aggregate crate [], []⟩ }

def firstInput : Variable := ⟨11, .place, some "a", default⟩

/-- `fn f(a: bool, b: second) where clauses` -/
def pair (second : Ty) (clauses : List WhereClause) : Function where
  id := 13
  name := "f"
  span := default
  hasSelf := false
  signature := .ok
    { generics := []
      ownGenerics := []
      inputs := [firstInput, ⟨12, .place, some "b", default⟩]
      types := ⟨[.bool, second], .unit, clauses⟩ }

def element : Variable := ⟨14, .type, some "T", default⟩

def kept : Variable := ⟨15, .place, some "c", default⟩

/-- `fn keep[T](c: T) -> T` -/
def keep : Function where
  id := 16
  name := "keep"
  span := default
  hasSelf := false
  signature := .ok
    { generics := [element], ownGenerics := [element], inputs := [kept], types := ⟨[.var element], .var element, []⟩ }

def crates (second : Ty) (clauses : List WhereClause) : World where
  config := {}
  program := Prelude.program.addField full .bool
  scope := [[("Crate", .aggregate crate), ("f", .function (pair second clauses)), ("mk", .function makeCrate),
    ("keep", .function keep)]]
  nextSymbol := 17
  nextReport := 0

/-- `{ let y; f(y.full.give, { y = mk(); true }); }`: the check of the first argument waits for the
second. -/
def waitsForSecond : Source.Expr :=
  let second : Source.Block := .statement default
    (.assign default (.id default "y") (.call default (.id default "mk") []))
    (.tail (.literal default (.boolean "true")))
  .block default (.letVar ⟨"y", default⟩ none (.statement default (.call default (.id default "f")
    [.permissionOp default .give (.dot default (.id default "y") ⟨"full", default⟩), .block default second]) .nil))

/-- `keep(c.give)` -/
def keepsOn : Source.Expr :=
  .call default (.id default "keep") [.permissionOp default .give (.id default "c")]

def untyped : Except Failure CheckResult → Option Nat
  | .error (.violated (.untypedVariable v)) => some v.id
  | _ => none

/-- `shared[a] bool` -/
def sharedFirst : Ty := .perm (.shared [.var firstInput]) .bool

/-- `shared[a] is copy, leased[a] is lent` -/
def mentionsFirst : List WhereClause :=
  [⟨.perm (.shared [.var firstInput]), .copy, default⟩, ⟨.perm (.leased [.var firstInput]), .lent, default⟩]

def sharing : World := crates sharedFirst mentionsFirst

abbrev inTime : Regime := .timely sharing.nextSymbol (· = kept) (· = "c")

theorem fits_pair : (pair sharedFirst mentionsFirst).Fits inTime := by
  have inputs : firstInput ∈ [firstInput, ⟨12, .place, some "b", default⟩] := List.mem_cons_self
  refine ⟨⟨fun k t known => ?_, trivial, ?_⟩, .inr (.inl rfl)⟩
  · have listed : t ∈ [Ty.bool, sharedFirst] := List.mem_of_getElem? known
    simp only [List.mem_cons, List.not_mem_nil, or_false] at listed
    rcases listed with rfl | rfl
    · trivial
    · exact ⟨List.forall_mem_singleton.mpr (.inr (.inl ⟨inputs, trivial⟩)), trivial⟩
  · refine List.forall_mem_cons.mpr ⟨?_, List.forall_mem_singleton.mpr ?_⟩
    · exact List.forall_mem_singleton.mpr (.inr (.inl ⟨inputs, trivial⟩))
    · exact List.forall_mem_singleton.mpr (.inr (.inl ⟨inputs, .inr id⟩))

theorem fits_keep : keep.Fits inTime := by
  have generic : element ∈ [element] := List.mem_cons_self
  refine ⟨⟨fun k t known => ?_, .inl generic, nofun⟩, .inr (.inr ?_)⟩
  · have listed : t ∈ [Ty.var element] := List.mem_of_getElem? known
    rw [List.mem_singleton.mp listed]
    exact .inl generic
  · exact List.forall_mem_singleton.mpr ⟨rfl, rfl⟩

theorem fits_sharing : sharing.Fits inTime := by
  have made : makeCrate.Fits inTime := by
    refine ⟨⟨fun k t known => ?_, trivial, nofun⟩, .inr (.inl rfl)⟩
    cases known
  refine .of_entries ?_ ?_ (fun v new => ⟨nofun, ?_⟩) fun group listed entry member => ?_
  · exact List.forall_mem_singleton.mpr trivial
  · intro entry listed
    rcases List.mem_cons.mp listed with rfl | old
    · intro member found f same
      rw [List.mem_singleton.mp found] at same
      cases same
    · exact Prelude.fits_members _ entry old
  · rintro ⟨_, rfl⟩
    exact absurd new (by decide)
  · rw [List.mem_singleton.mp listed] at member
    simp only [List.mem_cons, List.not_mem_nil, or_false] at member
    rcases member with rfl | rfl | rfl | rfl
    · exact ⟨Entity.Fits.all (e := .aggregate crate) (.inl trivial) nofun, nofun⟩
    · exact ⟨Entity.Fits.all (e := .function (pair sharedFirst mentionsFirst)) fits_pair nofun, nofun⟩
    · exact ⟨Entity.Fits.all (e := .function makeCrate) made nofun, nofun⟩
    · exact ⟨Entity.Fits.all (e := .function keep) fits_keep nofun, nofun⟩

def waiting : Stage Empty :=
  ⟨({ session := sharing.session } : Machine Empty).spawn ""
    (Rules.answer .unit (.body (Env.root sharing.scope) waitsForSecond none)), []⟩

theorem reached_waiting (fuel : Nat) :
    ReflTransGen (Stage.Proceeds inTime) ⟨{ session := sharing.session }, []⟩ (waiting.run Rules.answer fuel) := by
  let g : Goal .unit := .body (Env.root sharing.scope) waitsForSecond none
  have asked : g.Fits inTime sharing.session :=
    ⟨⟨fits_sharing.scope, fun t known => by cases known⟩, nofun, fun t wanted => by cases wanted⟩
  exact .head (.call "" asked) (Stage.proceeds_of_turns (Stage.turns_run Rules.answer fuel waiting))

/-- The clauses and the type of the second input mention the first, whose argument is typed late; and the
body of a generic function calls it again with its own input. -/
theorem made_variables_typed_in_time_sharing :
    (sharing.checkExpression waitsForSecond).toOption.map (·.hasErrors) = some false ∧
      (sharing.checkFunctionBody keep keepsOn).toOption.map (·.hasErrors) = some false ∧
      sharing.checkExpression waitsForSecond ≠ .error (.violated (.untypedVariable ⟨18, .place, none, default⟩)) ∧
      sharing.checkFunctionBody keep keepsOn ≠ .error (.violated (.untypedVariable ⟨17, .place, none, default⟩)) ∧
      .violated (.untypedVariable ⟨18, .place, none, default⟩) ∉ (waiting.run Rules.answer 50).machine.failures := by
  obtain ⟨schedules, checks, _⟩ := made_variables_typed_in_time (v := ⟨18, .place, none, default⟩) fits_sharing
    (by decide)
  obtain ⟨_, _, bodies⟩ := made_variables_typed_in_time (β := Empty) (v := ⟨17, .place, none, default⟩) fits_sharing
    (by decide)
  have own (sig : Signature) (found : keep.signature = .ok sig) (u : Variable)
      (listed : u ∈ sig.generics ∨ u ∈ sig.inputs) :
      u.id < sharing.nextSymbol ∧ (u = kept → ∀ name, u.name = some name → name = "c") := by
    cases found
    rcases listed with generic | input
    · rw [List.mem_singleton.mp generic]
      exact ⟨by decide, nofun⟩
    · rw [List.mem_singleton.mp input]
      exact ⟨by decide, fun _ name named => (Option.some.inj named).symm⟩
  exact ⟨by decide +kernel, by decide +kernel, checks waitsForSecond nofun, bodies keep fits_keep own keepsOn nofun,
    (schedules _ (reached_waiting 50)).1⟩

/-- `where leased[a] is copy` -/
def leasesFirst : WhereClause := ⟨.perm (.leased [.var firstInput]), .copy, default⟩

/-- The clause asks for the type of the first argument before it is there. -/
theorem argument_untyped_too_early : ∃ id, (crates .bool [leasesFirst]).nextSymbol ≤ id ∧
    untyped ((crates .bool [leasesFirst]).checkExpression waitsForSecond) = some id :=
  ⟨18, by decide, by decide +kernel⟩

end World

end Ownership
