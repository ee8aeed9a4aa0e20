import Ownership.Proofs.Scoping

namespace Ownership

inductive EffectKind where
  | call
  | await
  | assign
  | ret
  | bind
deriving DecidableEq

structure Guard where
  span : Span
  taken : Bool
deriving DecidableEq

structure Effect where
  guards : List Guard
  kind : EffectKind
  span : Span
deriving DecidableEq

namespace Effect

def plain (kind : EffectKind) (span : Span) : Effect := ⟨[], kind, span⟩

def under (g : Guard) (e : Effect) : Effect := { e with guards := g :: e.guards }

end Effect

def guarded (span : Span) (taken : Bool) (l : List Effect) : List Effect :=
  l.map (Effect.under ⟨span, taken⟩)

@[simp] theorem guarded_nil (span : Span) (taken : Bool) : guarded span taken [] = [] := rfl

def events (select : EffectKind → Bool) (l : List Effect) : List (EffectKind × Span) :=
  (l.filter fun e => select e.kind).map fun e => (e.kind, e.span)

namespace Core

def PlaceExpr.isWhole : PlaceExpr → Bool
  | .var _ _ _ => true
  | .field _ _ owner _ => owner.isWhole
  | .error _ => false

mutual
def Expr.isWhole : Expr → Bool
  | .mk _ _ n => n.isWhole

def Node.isWhole : Node → Bool
  | .semi first rest => first.isWhole && rest.isWhole
  | .tuple elements => Expr.allWhole elements
  | .integral _ => true
  | .bytes _ => true
  | .declare _ _ body => body.isWhole
  | .letIn _ _ initializer body => initializer.isWhole && body.isWhole
  | .await future _ => future.isWhole
  | .assign place value => place.isWhole && value.isWhole
  | .permissionOp _ place => place.isWhole
  | .call _ _ _ => true
  | .ret value => value.isWhole
  | .not operand _ => operand.isWhole
  | .negate operand _ => operand.isWhole
  | .binary _ left right => left.isWhole && right.isWhole
  | .cond arms => Arm.allWhole arms
  | .error _ => false

def Expr.allWhole : List Expr → Bool
  | [] => true
  | e :: es => e.isWhole && Expr.allWhole es

def Arm.allWhole : List Arm → Bool
  | [] => true
  | .when condition body :: arms => condition.isWhole && body.isWhole && Arm.allWhole arms
  | .otherwise body :: arms => body.isWhole && Arm.allWhole arms
end

/-- The binding of a value, unless an error stands in it. -/
def Expr.binding (e : Expr) : List Effect := if e.isWhole then [.plain .bind e.span] else []

mutual
def Expr.effects : Expr → List Effect
  | .mk span _ n => n.effects span

def Node.effects (span : Span) : Node → List Effect
  | .semi first rest => first.effects ++ rest.effects
  | .tuple elements => Expr.allEffects elements
  | .integral _ => []
  | .bytes _ => []
  | .declare v _ body => .plain .bind v.span :: body.effects
  | .letIn _ _ initializer body => initializer.effects ++ initializer.binding ++ body.effects
  | .await future _ => future.effects ++ [.plain .await span]
  | .assign _ value => value.effects ++ [.plain .assign span]
  | .permissionOp _ _ => []
  | .call _ _ _ => [.plain .call span]
  | .ret value => value.effects ++ [.plain .ret span]
  | .not operand _ => operand.effects
  | .negate operand _ => operand.effects
  | .binary _ left right => left.effects ++ right.effects
  | .cond arms => Arm.allEffects span arms
  | .error _ => []

def Expr.allEffects : List Expr → List Effect
  | [] => []
  | e :: es => e.effects ++ Expr.allEffects es

def Arm.allEffects (span : Span) : List Arm → List Effect
  | [] => []
  | .when condition body :: arms => condition.effects ++ guarded span true body.effects ++
    guarded span false (Arm.allEffects span arms)
  | .otherwise body :: arms => body.effects ++ Arm.allEffects span arms
end

def Expr.bound (e : Expr) : List Effect := e.effects ++ e.binding

section Conditionals

variable (span : Span) (condition yes no : Expr) (value : Bool)

@[simp] theorem Expr.effects_boolean : (Expr.boolean span value).effects = [] := by
  simp only [Expr.boolean, Expr.effects, Node.effects]

@[simp] theorem Expr.isWhole_boolean : (Expr.boolean span value).isWhole = true := by
  simp only [Expr.boolean, Expr.isWhole, Node.isWhole]

@[simp] theorem Expr.effects_ifThenElse : (Expr.ifThenElse span condition yes no).effects =
    condition.effects ++ guarded span true yes.effects ++ guarded span false no.effects := by
  simp only [Expr.ifThenElse, Expr.effects, Node.effects, Arm.allEffects, List.append_nil]

@[simp] theorem Expr.isWhole_ifThenElse : (Expr.ifThenElse span condition yes no).isWhole =
    (condition.isWhole && yes.isWhole && no.isWhole) := by
  simp only [Expr.ifThenElse, Expr.isWhole, Node.isWhole, Arm.allWhole, Bool.and_true]

end Conditionals

namespace Temporary

def effects (ts : List Temporary) : List Effect := ts.flatMap (·.initializer.bound)

def areWhole (ts : List Temporary) : Bool := ts.all (·.initializer.isWhole)

end Temporary

section Enclosing

variable (e : Expr) (ts : List Temporary)

theorem Expr.effects_enclose : (e.enclose ts).effects = Temporary.effects ts ++ e.effects := by
  induction ts with
  | nil => rfl
  | cons t ts ih =>
    have unfolded : (e.enclose (t :: ts)).effects = t.initializer.bound ++ (e.enclose ts).effects := rfl
    rw [unfolded, ih, Temporary.effects, Temporary.effects, List.flatMap_cons, List.append_assoc]

theorem Expr.isWhole_enclose : (e.enclose ts).isWhole = (Temporary.areWhole ts && e.isWhole) := by
  induction ts with
  | nil => rfl
  | cons t ts ih =>
    have unfolded : (e.enclose (t :: ts)).isWhole = (t.initializer.isWhole && (e.enclose ts).isWhole) := rfl
    rw [unfolded, ih, Temporary.areWhole, Temporary.areWhole, List.all_cons, Bool.and_assoc]

theorem Expr.span_enclose : (e.enclose ts).span = e.span := by
  induction ts with
  | nil => rfl
  | cons t ts ih => exact ih

end Enclosing

end Core

/-- What a path stands for before its context is known: a value, a module, or another name. -/
inductive Standing where
  | value
  | module (items : List (String × Entity))
  | name

def Entity.standing : Entity → Standing
  | .var v => if v.kind = .place then .value else .name
  | .module _ _ items => .module items
  | _ => .name

def Standing.member : Standing → String → Standing
  | .module items, m => (items.lookup m).elim .value Entity.standing
  | s, _ => s

abbrev Naming := String → Standing

def Naming.bind (names : Naming) (name : String) : Naming :=
  fun other => if other = name then .value else names other

def Scope.names (s : Scope) : Naming := fun name => (s.resolve? name).elim .value (·.entity.standing)

theorem Scope.names_of_resolve {s : Scope} {name : String} {span : Span} {r : Resolution}
    (resolved : s.resolve name span = .ok r) : s.names name = r.entity.standing := by
  unfold Scope.resolve at resolved
  split at resolved
  · rename_i found
    cases resolved
    rw [Scope.names, found]
    rfl
  · cases resolved

theorem Resolution.standing_of_relative {p : Program} {r found : Resolution} {name : String} {span : Span}
    (resolved : r.relative p name span = .ok (.found found)) :
    found.entity.standing = r.entity.standing.member name := by
  unfold Resolution.relative at resolved
  split at resolved
  · rename_i isModule
    split at resolved
    · rename_i item
      cases resolved
      rw [isModule, Entity.standing, Standing.member, item]
      rfl
    · cases resolved
  · rename_i isAggregate
    rw [isAggregate]
    split at resolved <;> cases resolved <;> rfl
  · cases resolved

theorem Env.names_withLocal (env : Env) (name : String) {v : Variable} (place : v.kind = .place) :
    (env.withLocal name v).scope.names = env.scope.names.bind name := by
  funext other
  by_cases same : other = name
  · subst same
    simp [Env.withLocal, Scope.withEntry, Scope.names, Scope.resolve?, Scope.lookup, Naming.bind, Entity.standing, place]
  · simp [Env.withLocal, Scope.withEntry, Scope.names, Scope.resolve?, Scope.lookup, Naming.bind, same,
      List.lookup_cons, beq_eq_false_iff_ne.mpr same]

/-- What an operand does: ahead of the expression it stands in, in temporaries, and in its place. -/
structure Schedule where
  ahead : List Effect := []
  inPlace : List Effect := []
  /-- How many effects of the right operands of `&&` and `||` are in temporaries around the conditional. -/
  escapes : Nat := 0
  /-- How many pairs of the effects selected change places. -/
  crossings : (EffectKind → Bool) → Nat := fun _ => 0

namespace Schedule

def total (s : Schedule) : List Effect := s.ahead ++ s.inPlace

def stored (s : Schedule) (l : List Effect) : Schedule := { s with
  ahead := s.total ++ l
  inPlace := [] }

def closed (s : Schedule) : Schedule := { s with
  ahead := []
  inPlace := s.total }

/-- What the first operand does in place comes after what the second does ahead. -/
def beside (s t : Schedule) : Schedule where
  ahead := s.ahead ++ t.ahead
  inPlace := s.inPlace ++ t.inPlace
  escapes := s.escapes + t.escapes
  crossings select := s.crossings select + t.crossings select +
    (events select s.inPlace).length * (events select t.ahead).length

def before (s t : Schedule) : Schedule := s.closed.beside t.closed

def guard (span : Span) (taken : Bool) (s : Schedule) : Schedule := { s with
  inPlace := guarded span taken s.inPlace
  escapes := s.escapes + s.ahead.length }

def andThen (s : Schedule) (l : List Effect) : Schedule := { s with inPlace := s.inPlace ++ l }

theorem total_before (s t : Schedule) : (s.before t).total = s.total ++ t.total := rfl

theorem total_andThen (s : Schedule) (l : List Effect) : (s.andThen l).total = s.total ++ l :=
  (List.append_assoc _ _ _).symm

end Schedule

namespace Source

mutual
def Expr.valueSpan : Expr → Span
  | .block span b => b.valueSpan span
  | e => e.span

def Block.valueSpan (span : Span) : Block → Span
  | .nil => span
  | .tail value => value.valueSpan
  | .letVar _ _ rest => rest.valueSpan span
  | .letInit _ _ _ rest => rest.valueSpan span
  | .statement span _ _ => span
end

def Expr.binding (e : Expr) : List Effect := [.plain .bind e.valueSpan]

def Expr.isPath : Expr → Bool
  | .id _ _ => true
  | .dot _ _ _ => true
  | .bracket _ _ _ => true
  | _ => false

def Expr.standing (names : Naming) : Expr → Standing
  | .id _ name => names name
  | .dot _ owner member => (owner.standing names).member member.id
  | .bracket _ owner _ => owner.standing names
  | _ => .value

/-- A value whose place is asked for is bound. -/
def Expr.held (e : Expr) : List Effect := if e.isPath then [] else e.binding

def Expr.receiver (names : Naming) (e : Expr) : List Effect :=
  match e.standing names with
  | .value => e.binding
  | _ => []

mutual
/-- What checking makes of the expression. -/
def Expr.schedule (names : Naming) : Expr → Schedule
  | .literal span (.string _) =>
    { ahead := [.plain .bind span, .plain .bind span], inPlace := [.plain .call span] }
  | .literal _ (.integer _) => {}
  | .literal _ (.boolean _) => {}
  | .tuple _ elements => Expr.schedules names (fun _ => []) elements
  | .binary span .and _ left right =>
    (left.schedule names).beside ((right.schedule names).guard span true)
  | .binary span .or _ left right =>
    (left.schedule names).beside ((right.schedule names).guard span false)
  | .binary _ (.operator _) _ left right => (left.schedule names).beside (right.schedule names)
  | .assign span place value =>
    (((place.schedule names).stored place.held).beside (value.schedule names)).andThen [.plain .assign span]
  | .id _ _ => {}
  | .dot _ owner _ => (owner.schedule names).stored owner.held
  | .bracket _ owner _ => owner.schedule names
  | .call span owner args =>
    ((owner.callee names).beside (Expr.schedules names Expr.binding args)).andThen [.plain .call span]
  | .returnUnit span => { inPlace := [.plain .ret span] }
  | .returnValue span value => (value.schedule names).andThen [.plain .ret span]
  | .await span future _ => (future.schedule names).andThen [.plain .await span]
  | .unary _ _ _ operand => operand.schedule names
  | .cond span arms => (Arm.schedules names span arms).closed
  | .permissionOp _ _ value => (value.schedule names).stored value.held
  | .block _ b => (b.schedule names).closed

/-- The receiver of a method is bound in place, for the call to come. -/
def Expr.callee (names : Naming) : Expr → Schedule
  | .dot _ owner _ => (owner.schedule names).andThen (owner.receiver names)
  | .bracket _ owner _ => owner.callee names
  | _ => {}

def Expr.schedules (names : Naming) (after : Expr → List Effect) : List Expr → Schedule
  | [] => {}
  | e :: es => ((e.schedule names).andThen (after e)).beside (Expr.schedules names after es)

def Arm.schedules (names : Naming) (span : Span) : List Arm → Schedule
  | [] => {}
  | .when condition body :: arms =>
    ((condition.schedule names).before ((body.schedule names).closed.guard span true)).before
      ((Arm.schedules names span arms).closed.guard span false)
  | .otherwise body :: arms => (body.schedule names).before (Arm.schedules names span arms)

def Block.schedule (names : Naming) : Block → Schedule
  | .nil => {}
  | .tail value => value.schedule names
  | .letVar name _ rest =>
    Schedule.before { inPlace := [.plain .bind name.span] } (rest.schedule (names.bind name.id))
  | .letInit name _ initializer rest =>
    ((initializer.schedule names).andThen initializer.binding).before (rest.schedule (names.bind name.id))
  | .statement _ e rest => (e.schedule names).before (rest.schedule names)
end

mutual
/-- What the text of the expression says: operands from left to right and then the expression itself,
and the right operand of `&&` and `||` only where the left one does not decide. -/
def Expr.effects (names : Naming) : Expr → List Effect
  | .literal span (.string _) => [.plain .bind span, .plain .bind span, .plain .call span]
  | .literal _ (.integer _) => []
  | .literal _ (.boolean _) => []
  | .tuple _ elements => Expr.allEffects names (fun _ => []) elements
  | .binary span .and _ left right => left.effects names ++ guarded span true (right.effects names)
  | .binary span .or _ left right => left.effects names ++ guarded span false (right.effects names)
  | .binary _ (.operator _) _ left right => left.effects names ++ right.effects names
  | .assign span place value =>
    place.effects names ++ place.held ++ value.effects names ++ [.plain .assign span]
  | .id _ _ => []
  | .dot _ owner _ => owner.effects names ++ owner.held
  | .bracket _ owner _ => owner.effects names
  | .call span owner args =>
    owner.calleeEffects names ++ Expr.allEffects names Expr.binding args ++ [.plain .call span]
  | .returnUnit span => [.plain .ret span]
  | .returnValue span value => value.effects names ++ [.plain .ret span]
  | .await span future _ => future.effects names ++ [.plain .await span]
  | .unary _ _ _ operand => operand.effects names
  | .cond span arms => Arm.allEffects names span arms
  | .permissionOp _ _ value => value.effects names ++ value.held
  | .block _ b => b.effects names

def Expr.calleeEffects (names : Naming) : Expr → List Effect
  | .dot _ owner _ => owner.effects names ++ owner.receiver names
  | .bracket _ owner _ => owner.calleeEffects names
  | _ => []

def Expr.allEffects (names : Naming) (after : Expr → List Effect) : List Expr → List Effect
  | [] => []
  | e :: es => e.effects names ++ after e ++ Expr.allEffects names after es

def Arm.allEffects (names : Naming) (span : Span) : List Arm → List Effect
  | [] => []
  | .when condition body :: arms => condition.effects names ++ guarded span true (body.effects names) ++
    guarded span false (Arm.allEffects names span arms)
  | .otherwise body :: arms => body.effects names ++ Arm.allEffects names span arms

def Block.effects (names : Naming) : Block → List Effect
  | .nil => []
  | .tail value => value.effects names
  | .letVar name _ rest => [.plain .bind name.span] ++ rest.effects (names.bind name.id)
  | .letInit name _ initializer rest =>
    initializer.effects names ++ initializer.binding ++ rest.effects (names.bind name.id)
  | .statement _ e rest => e.effects names ++ rest.effects names
end

theorem Expr.standing_of_not_isPath {names : Naming} {e : Expr} (value : e.isPath = false) :
    e.standing names = .value := by
  cases e with
  | id | dot | bracket => cases value
  | _ => rfl

/-- A name does nothing by itself. -/
theorem Expr.quiet_of_standing {names : Naming} : (e : Expr) → e.standing names ≠ .value →
    e.isPath ∧ e.schedule names = {} ∧ e.callee names = {}
  | .id _ _, _ => ⟨rfl, rfl, rfl⟩
  | .dot _ owner member, named => by
    have ownerNamed : owner.standing names ≠ .value := fun value => named (by rw [Expr.standing, value]; rfl)
    obtain ⟨path, quiet, _⟩ := Expr.quiet_of_standing owner ownerNamed
    have unbound : owner.receiver names = [] := by
      rw [Expr.receiver]
      split
      · rename_i value
        exact absurd value ownerNamed
      · rfl
    refine ⟨rfl, ?_, ?_⟩
    · rw [Expr.schedule, quiet, Expr.held, path]
      rfl
    · rw [Expr.callee, quiet, unbound]
      rfl
  | .bracket _ owner _, named => by
    obtain ⟨_, quiet, called⟩ := Expr.quiet_of_standing owner named
    exact ⟨rfl, by rw [Expr.schedule, quiet], by rw [Expr.callee, called]⟩
  | .literal .., named | .tuple .., named | .binary .., named | .assign .., named | .call .., named
  | .returnUnit .., named | .returnValue .., named | .await .., named | .unary .., named | .cond .., named
  | .permissionOp .., named | .block .., named => absurd rfl named

theorem Expr.ahead_callee (names : Naming) : (e : Expr) → (e.callee names).ahead.Sublist (e.schedule names).ahead
  | .dot _ owner _ => by
    rw [Expr.callee, Expr.schedule]
    exact (List.sublist_append_left _ _).trans (List.sublist_append_left _ _)
  | .bracket _ owner _ => by
    rw [Expr.callee, Expr.schedule]
    exact Expr.ahead_callee names owner
  | .id .. | .literal .. | .tuple .. | .binary .. | .assign .. | .call .. | .returnUnit .. | .returnValue .. | .await ..
  | .unary .. | .cond .. | .permissionOp .. | .block .. => List.nil_sublist _

end Source

def Matches (whole : Bool) (l expected : List Effect) : Prop :=
  l.Sublist expected ∧ (whole → l = expected)

namespace Matches

variable {whole whole' : Bool} {l m expected expected' : List Effect}

theorem refl (whole : Bool) (l : List Effect) : Matches whole l l := ⟨.refl l, fun _ => rfl⟩

theorem broken (fewer : l.Sublist expected) : Matches false l expected :=
  ⟨fewer, fun whole => absurd whole Bool.false_ne_true⟩

theorem none (quiet : whole → expected = []) : Matches whole [] expected :=
  ⟨List.nil_sublist _, fun w => (quiet w).symm⟩

theorem imp (h : Matches whole l expected) (le : whole' → whole) : Matches whole' l expected :=
  ⟨h.1, fun w => h.2 (le w)⟩

theorem append (first : Matches whole l expected) (second : Matches whole m expected') :
    Matches whole (l ++ m) (expected ++ expected') :=
  ⟨first.1.append second.1, fun w => by rw [first.2 w, second.2 w]⟩

theorem guarded (h : Matches whole l expected) (span : Span) (taken : Bool) :
    Matches whole (guarded span taken l) (guarded span taken expected) :=
  ⟨h.1.map _, fun w => by rw [h.2 w]⟩

theorem pair {e e' : Core.Expr} (first : Matches e.isWhole l expected)
    (second : Matches e'.isWhole m expected') : Matches (e.isWhole && e'.isWhole) (l ++ m) (expected ++ expected') :=
  (first.imp fun w => (Bool.and_eq_true_iff.1 w).1).append
    (second.imp fun w => (Bool.and_eq_true_iff.1 w).2)

theorem binding {v : Core.Expr} (same : v.isWhole → expected = [.plain .bind v.span]) :
    Matches v.isWhole v.binding expected := by
  unfold Core.Expr.binding
  split
  · rename_i whole
    rw [same whole]
    exact .refl _ _
  · rename_i error
    exact .none fun whole => absurd whole error

end Matches

def Core.Arm.Follows (names : Naming) : Source.Arm → Core.Arm → Prop
  | .when condition block, .when condition' block' =>
    Matches condition'.isWhole condition'.effects (condition.schedule names).total ∧
      Matches block'.isWhole block'.effects (block.schedule names).total
  | .otherwise block, .otherwise block' => Matches block'.isWhole block'.effects (block.schedule names).total
  | _, _ => False

theorem Core.Arm.matches_all {names : Naming} (span : Span) {as : List Source.Arm} {cs : List Core.Arm}
    (follow : List.Forall₂ (Core.Arm.Follows names) as cs) :
    Matches (Core.Arm.allWhole cs) (Core.Arm.allEffects span cs) (Source.Arm.schedules names span as).total := by
  induction follow with
  | nil => exact .refl _ _
  | @cons a c as cs own _ ih =>
    cases a with
    | when condition block =>
      cases c with
      | when condition' block' =>
        obtain ⟨inCondition, inBlock⟩ := own
        have parts : Core.Arm.allWhole (.when condition' block' :: cs) →
            condition'.isWhole ∧ block'.isWhole ∧ Core.Arm.allWhole cs := by
          simp only [Core.Arm.allWhole]
          grind
        simp only [Core.Arm.allEffects, Source.Arm.schedules]
        exact ((inCondition.imp fun w => (parts w).1).append
          ((inBlock.imp fun w => (parts w).2.1).guarded span true)).append
          ((ih.imp fun w => (parts w).2.2).guarded span false)
      | otherwise block' => exact own.elim
    | otherwise block =>
      cases c with
      | when condition' block' => exact own.elim
      | otherwise block' =>
        have parts : Core.Arm.allWhole (.otherwise block' :: cs) →
            block'.isWhole ∧ Core.Arm.allWhole cs := by
          simp only [Core.Arm.allWhole]
          grind
        simp only [Core.Arm.allEffects, Source.Arm.schedules]
        exact (Matches.imp own fun w => (parts w).1).append (ih.imp fun w => (parts w).2)

open Ownership.Core (Temporary)

namespace Schedule

structure Covers (s : Schedule) (ts : List Temporary) (whole : Bool) (l : List Effect) : Prop where
  ahead : Matches (Temporary.areWhole ts && whole) (Temporary.effects ts) s.ahead
  inPlace : Matches (Temporary.areWhole ts && whole) l s.inPlace

namespace Covers

variable {s t : Schedule} {ts us : List Temporary} {whole whole' : Bool} {l m : List Effect} {v : Core.Expr}

theorem broken (fewer : (Temporary.effects ts).Sublist s.ahead) : s.Covers ts false [] where
  ahead := by rw [Bool.and_false]; exact .broken fewer
  inPlace := by rw [Bool.and_false]; exact .broken (List.nil_sublist _)

theorem nothing : Covers {} [] true [] := ⟨.refl _ _, .refl _ _⟩

theorem total (h : s.Covers ts whole l) :
    Matches (Temporary.areWhole ts && whole) (Temporary.effects ts ++ l) s.total :=
  h.ahead.append h.inPlace

theorem beside (first : s.Covers ts whole l) (second : t.Covers us whole' m) :
    (s.beside t).Covers (ts ++ us) (whole && whole') (l ++ m) := by
  have parts : Temporary.areWhole (ts ++ us) && (whole && whole') →
      (Temporary.areWhole ts && whole) ∧ (Temporary.areWhole us && whole') := by
    rw [Temporary.areWhole, List.all_append]
    grind [Temporary.areWhole]
  refine ⟨?_, ?_⟩
  · rw [Temporary.effects, List.flatMap_append]
    exact (first.ahead.imp fun w => (parts w).1).append (second.ahead.imp fun w => (parts w).2)
  · exact (first.inPlace.imp fun w => (parts w).1).append (second.inPlace.imp fun w => (parts w).2)

theorem guard (h : s.Covers ts whole l) (span : Span) (taken : Bool) :
    (s.guard span taken).Covers ts whole (guarded span taken l) :=
  ⟨h.ahead, h.inPlace.guarded span taken⟩

theorem andThen (h : s.Covers ts whole l) (m : List Effect) : (s.andThen m).Covers ts whole (l ++ m) :=
  ⟨h.ahead, h.inPlace.append (.refl _ _)⟩

theorem closed (h : Matches whole l s.total) : s.closed.Covers [] whole l := ⟨.refl _ _, h⟩

theorem bound (h : s.Covers ts v.isWhole v.effects) (same : v.isWhole → m = [.plain .bind v.span]) :
    (s.andThen m).Covers ts v.isWhole v.bound :=
  ⟨h.ahead, h.inPlace.append ((Matches.binding same).imp fun w => (Bool.and_eq_true_iff.1 w).2)⟩

theorem stored (h : s.Covers ts whole []) (unbound : whole → m = []) : (s.stored m).Covers ts whole [] := by
  refine ⟨?_, .refl _ _⟩
  have quiet : Matches (Temporary.areWhole ts && whole) [] m :=
    .none fun w => unbound (Bool.and_eq_true_iff.1 w).2
  have total := h.total.append quiet
  rwa [List.append_nil, List.append_nil] at total

theorem storedIn {t : Temporary} (h : s.Covers ts t.initializer.isWhole t.initializer.effects)
    (same : t.initializer.isWhole → m = [.plain .bind t.initializer.span]) :
    (s.stored m).Covers (ts ++ [t]) true [] := by
  refine ⟨?_, .refl _ _⟩
  have total := h.total.append ((Matches.binding same).imp fun w => (Bool.and_eq_true_iff.1 w).2)
  rw [List.append_assoc] at total
  simpa [Temporary.effects, Temporary.areWhole, Core.Expr.bound, Schedule.stored] using total

end Covers

end Schedule

/-- What a node does, with its temporaries around it, is what is scheduled for the expression. -/
structure Source.Expr.Yields (names : Naming) (e : Source.Expr) (ts : List Temporary) (whole : Bool)
    (l : List Effect) (span : Span) : Prop where
  covers : (e.schedule names).Covers ts whole l
  span : whole → span = e.valueSpan
  value : whole → e.standing names = .value

theorem Source.Expr.Yields.broken {names : Naming} {e : Source.Expr} {ts : List Temporary}
    (fewer : (Temporary.effects ts).Sublist (e.schedule names).ahead) (span : Span) :
    e.Yields names ts false [] span where
  covers := .broken fewer
  span := fun whole => absurd whole Bool.false_ne_true
  value := fun whole => absurd whole Bool.false_ne_true

namespace Finding

/-- The finding does what is expected of the expression. Only a method keeps the value of its receiver
in place, for the call to come. -/
def Follows (names : Naming) (e : Source.Expr) (f : Finding) : Prop :=
  match f.found with
  | .place p => e.Yields names f.temporaries p.isWhole [] p.span ∧ (p.isWhole → e.isPath)
  | .value v => e.Yields names f.temporaries v.isWhole v.effects v.span ∧ e.isPath = false
  | .method self _ _ _ => (e.callee names).Covers f.temporaries self.isWhole self.bound
  | .name r => f.temporaries = [] ∧ e.standing names = r.entity.standing ∧ r.entity.standing ≠ .value

theorem follows_ofReport (names : Naming) (e : Source.Expr) (r : Report) : (ofReport r).Follows names e :=
  ⟨@Source.Expr.Yields.broken names e [] (List.nil_sublist _) _, fun whole => absurd whole Bool.false_ne_true⟩

theorem Follows.broken {names : Naming} {e : Source.Expr} {f : Finding} (follows : f.Follows names e)
    (waits : (∃ self span fn generics, f.found = .method self span fn generics) ∨ ∃ r, f.found = .name r)
    (span : Span) : e.Yields names f.temporaries false [] span := by
  obtain ⟨ts, fSpan, found⟩ := f
  rcases waits with ⟨self, idSpan, fn, generics, rfl⟩ | ⟨r, rfl⟩
  · exact .broken (follows.ahead.1.trans (e.ahead_callee names)) span
  · obtain ⟨rfl, _⟩ := follows
    exact @Source.Expr.Yields.broken names e [] (List.nil_sublist _) span

end Finding

def Argument.Follows (names : Naming) (l : Lifted Core.Expr) : Argument → Prop
  | .self v => l = ⟨v, []⟩
  | .expr e => e.Yields names l.temporaries l.node.isWhole l.node.effects l.node.span

end Ownership
