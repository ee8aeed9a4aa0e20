import Mathlib.Data.List.Perm.Subperm
import Ownership.Proofs.BindingRules

namespace Ownership

def weight (l : List Effect) : Nat := (l.map fun e => e.guards.length).sum

theorem weight_append (l m : List Effect) : weight (l ++ m) = weight l + weight m := by
  simp only [weight, List.map_append, List.sum_append]

theorem weight_guarded (span : Span) (taken : Bool) (l : List Effect) :
    weight (guarded span taken l) = weight l + l.length := by
  induction l with
  | nil => rfl
  | cons e l ih =>
    simp only [weight, guarded, List.map_cons, List.sum_cons, Effect.under, List.length_cons] at ih ⊢
    omega

theorem weight_perm {l m : List Effect} (p : l.Perm m) : weight l = weight m := (p.map _).sum_nat

theorem length_guarded (span : Span) (taken : Bool) (l : List Effect) :
    (guarded span taken l).length = l.length := List.length_map _

theorem Schedule.total_beside (s t : Schedule) : (s.beside t).total.Perm (s.total ++ t.total) := by
  have swapped : (t.ahead ++ s.inPlace ++ t.inPlace).Perm (s.inPlace ++ t.ahead ++ t.inPlace) :=
    List.perm_append_comm.append_right _
  simpa only [beside, total, List.append_assoc] using swapped.append_left s.ahead

structure Escaped (n : Nat) (l expected : List Effect) : Prop where
  length : l.length = expected.length
  weight : weight l + n = weight expected
  perm : n = 0 → l.Perm expected

namespace Escaped

variable {n k : Nat} {l m expected expected' : List Effect} {s t : Schedule}

theorem refl (l : List Effect) : Escaped 0 l l := ⟨rfl, rfl, fun _ => .refl l⟩

theorem append (first : Escaped n l expected) (second : Escaped k m expected') :
    Escaped (n + k) (l ++ m) (expected ++ expected') where
  length := by simp only [List.length_append, first.length, second.length]
  weight := by
    have := first.weight
    have := second.weight
    simp only [weight_append]
    omega
  perm := fun none => (first.perm (by omega)).append (second.perm (by omega))

theorem beside (first : Escaped n s.total expected) (second : Escaped k t.total expected') :
    Escaped (n + k) (s.beside t).total (expected ++ expected') where
  length := (Schedule.total_beside s t).length_eq.trans (first.append second).length
  weight := by rw [weight_perm (Schedule.total_beside s t), (first.append second).weight]
  perm := fun none => (Schedule.total_beside s t).trans ((first.append second).perm none)

theorem guard (h : Escaped n s.total expected) (span : Span) (taken : Bool) :
    Escaped (n + s.ahead.length) (s.guard span taken).total (guarded span taken expected) where
  length := by
    have := h.length
    simp only [Schedule.guard, Schedule.total, List.length_append, length_guarded] at this ⊢
    omega
  weight := by
    have := h.length
    have := h.weight
    simp only [Schedule.guard, Schedule.total, List.length_append, weight_append, weight_guarded] at *
    omega
  perm := fun none => by
    have early : s.ahead = [] := List.eq_nil_of_length_eq_zero (by omega)
    have same := h.perm (by omega)
    simp only [Schedule.guard, Schedule.total, early, List.nil_append] at same ⊢
    exact same.map _

theorem perm_iff (h : Escaped n l expected) : l.Perm expected ↔ n = 0 := by
  refine ⟨fun p => ?_, h.perm⟩
  have same := weight_perm p
  have := h.weight
  omega

end Escaped

section Order

variable {select : EffectKind → Bool}

theorem events_append (l m : List Effect) : events select (l ++ m) = events select l ++ events select m := by
  simp only [events, List.filter_append, List.map_append]

theorem events_guarded (span : Span) (taken : Bool) (l : List Effect) :
    events select (guarded span taken l) = events select l := by
  simp only [events, guarded, List.filter_map, List.map_map]
  rfl

theorem events_beside {s t : Schedule} (apart : events select s.inPlace = [] ∨ events select t.ahead = []) :
    events select (s.beside t).total = events select (s.total ++ t.total) := by
  simp only [Schedule.beside, Schedule.total, events_append]
  rcases apart with quiet | quiet <;> simp [quiet]

theorem eq_nil_of_append_comm {α : Type} {a b c d e f : List α} (first : (a ++ c).Perm e) (second : (b ++ d).Perm f)
    (distinct : (e ++ f).Nodup) (same : a ++ b ++ (c ++ d) = e ++ f) : c = [] ∨ b = [] := by
  by_contra both
  obtain ⟨late, early⟩ := not_or.1 both
  obtain ⟨x, b, rfl⟩ := List.exists_cons_of_ne_nil early
  have longer : a.length < e.length := by
    rw [← first.length_eq, List.length_append]
    exact Nat.lt_add_of_pos_right (List.length_pos_of_ne_nil late)
  have inFirst : x ∈ e := by
    have stands : (e ++ f)[a.length]? = some x := by simp [← same]
    rw [List.getElem?_append_left longer] at stands
    exact List.mem_of_getElem? stands
  have inSecond : x ∈ f := second.subset (List.mem_append_left _ List.mem_cons_self)
  exact List.disjoint_of_nodup_append distinct inFirst inSecond

structure Crossed (select : EffectKind → Bool) (n : Nat) (l expected : List Effect) : Prop where
  perm : (events select l).Perm (events select expected)
  eq : n = 0 → events select l = events select expected
  zero : (events select expected).Nodup → events select l = events select expected → n = 0

namespace Crossed

variable {n k : Nat} {l m expected expected' : List Effect} {s t : Schedule}

theorem refl (l : List Effect) : Crossed select 0 l l := ⟨.refl _, fun _ => rfl, fun _ _ => rfl⟩

theorem append (first : Crossed select n l expected) (second : Crossed select k m expected') :
    Crossed select (n + k) (l ++ m) (expected ++ expected') where
  perm := by
    simp only [events_append]
    exact first.perm.append second.perm
  eq := fun none => by
    simp only [events_append, first.eq (by omega), second.eq (by omega)]
  zero := fun distinct same => by
    simp only [events_append] at distinct same
    obtain ⟨left, right⟩ := List.append_inj same first.perm.length_eq
    rw [first.zero distinct.of_append_left left, second.zero distinct.of_append_right right]

theorem beside (first : Crossed select n s.total expected) (second : Crossed select k t.total expected') :
    Crossed select (n + k + (events select s.inPlace).length * (events select t.ahead).length)
      (s.beside t).total (expected ++ expected') where
  perm := (((Schedule.total_beside s t).filter _).map _).trans (first.append second).perm
  eq := fun none => by
    obtain ⟨own, apart⟩ := Nat.add_eq_zero_iff.mp none
    rw [events_beside ((Nat.mul_eq_zero.mp apart).imp List.eq_nil_of_length_eq_zero List.eq_nil_of_length_eq_zero)]
    exact (first.append second).eq own
  zero := fun distinct same => by
    have apart : events select s.inPlace = [] ∨ events select t.ahead = [] := by
      have ahead := first.perm
      have inPlace := second.perm
      simp only [Schedule.total, Schedule.beside, events_append] at ahead inPlace distinct same
      exact eq_nil_of_append_comm ahead inPlace distinct same
    rw [events_beside apart] at same
    rw [(first.append second).zero distinct same, Nat.zero_add, Nat.mul_eq_zero]
    exact apart.imp (by simp [·]) (by simp [·])

theorem guard (h : Crossed select n s.total expected) (span : Span) (taken : Bool) :
    Crossed select n (s.guard span taken).total (guarded span taken expected) := by
  have same : events select (s.guard span taken).total = events select s.total := by
    simp only [Schedule.guard, Schedule.total, events_append, events_guarded]
  constructor <;> simp only [same, events_guarded]
  exacts [h.perm, h.eq, h.zero]

end Crossed

end Order

/-- The effects scheduled are those of the text, but for the decisions that are escaped and the pairs
that change places. -/
structure Schedule.Renders (s : Schedule) (text : List Effect) : Prop where
  escaped : Escaped s.escapes s.total text
  crossed : ∀ select, Crossed select (s.crossings select) s.total text

namespace Schedule.Renders

variable {s t : Schedule} {l m : List Effect}

theorem written (ahead inPlace : List Effect) : Renders { ahead, inPlace } (ahead ++ inPlace) :=
  ⟨.refl _, fun _ => .refl _⟩

theorem beside (first : s.Renders l) (second : t.Renders m) : (s.beside t).Renders (l ++ m) :=
  ⟨first.escaped.beside second.escaped, fun select => (first.crossed select).beside (second.crossed select)⟩

theorem guard (h : s.Renders l) (span : Span) (taken : Bool) :
    (s.guard span taken).Renders (guarded span taken l) :=
  ⟨h.escaped.guard span taken, fun select => (h.crossed select).guard span taken⟩

theorem closed (h : s.Renders l) : s.closed.Renders l := ⟨h.escaped, h.crossed⟩

theorem before (first : s.Renders l) (second : t.Renders m) : (s.before t).Renders (l ++ m) :=
  first.closed.beside second.closed

theorem append {s' : Schedule} (h : s.Renders l) (escapes : s'.escapes = s.escapes)
    (crossings : s'.crossings = s.crossings) (total : s'.total = s.total ++ m) : s'.Renders (l ++ m) where
  escaped := by
    rw [escapes, total]
    exact h.escaped.append (.refl m)
  crossed := fun select => by
    rw [crossings, total]
    exact (h.crossed select).append (.refl m)

theorem andThen (h : s.Renders l) (m : List Effect) : (s.andThen m).Renders (l ++ m) :=
  h.append rfl rfl (total_andThen s m)

theorem stored (h : s.Renders l) (m : List Effect) : (s.stored m).Renders (l ++ m) :=
  h.append rfl rfl (List.append_nil _)

end Schedule.Renders

namespace Source

open Schedule.Renders (written)

mutual
theorem Expr.renders (names : Naming) (e : Expr) : (e.schedule names).Renders (e.effects names) := by
  match e with
  | .literal span (.string _) => exact written _ _
  | .literal _ (.integer _) | .literal _ (.boolean _) | .id _ _ => exact written [] []
  | .tuple _ elements => exact Expr.renders_all names _ elements
  | .binary span .and _ left right => exact (left.renders names).beside ((right.renders names).guard span true)
  | .binary span .or _ left right => exact (left.renders names).beside ((right.renders names).guard span false)
  | .binary _ (.operator _) _ left right => exact (left.renders names).beside (right.renders names)
  | .assign _ place value =>
    exact (((place.renders names).stored _).beside (value.renders names)).andThen _
  | .dot _ owner _ => exact (owner.renders names).stored _
  | .bracket _ owner _ => exact owner.renders names
  | .call _ owner args => exact ((owner.callee_renders names).beside (Expr.renders_all names _ args)).andThen _
  | .returnUnit _ => exact written [] _
  | .returnValue _ value => exact (value.renders names).andThen _
  | .await _ future _ => exact (future.renders names).andThen _
  | .unary _ _ _ operand => exact operand.renders names
  | .cond span arms => exact (Arm.renders_all names span arms).closed
  | .permissionOp _ _ value => exact (value.renders names).stored _
  | .block _ b => exact (b.renders names).closed

theorem Expr.callee_renders (names : Naming) (e : Expr) :
    (e.callee names).Renders (e.calleeEffects names) := by
  match e with
  | .dot _ owner _ => exact (owner.renders names).andThen _
  | .bracket _ owner _ => exact owner.callee_renders names
  | .literal .. | .tuple .. | .binary .. | .assign .. | .id .. | .call .. | .returnUnit .. | .returnValue ..
  | .await .. | .unary .. | .cond .. | .permissionOp .. | .block .. => exact written [] []

theorem Expr.renders_all (names : Naming) (after : Expr → List Effect) (es : List Expr) :
    (Expr.schedules names after es).Renders (Expr.allEffects names after es) := by
  match es with
  | [] => exact written [] []
  | e :: es => exact ((e.renders names).andThen _).beside (Expr.renders_all names after es)

theorem Arm.renders_all (names : Naming) (span : Span) (arms : List Arm) :
    (Arm.schedules names span arms).Renders (Arm.allEffects names span arms) := by
  match arms with
  | [] => exact written [] []
  | .when condition body :: arms =>
    exact ((condition.renders names).before ((body.renders names).closed.guard span true)).before
      ((Arm.renders_all names span arms).closed.guard span false)
  | .otherwise body :: arms => exact (body.renders names).before (Arm.renders_all names span arms)

theorem Block.renders (names : Naming) (b : Block) : (b.schedule names).Renders (b.effects names) := by
  match b with
  | .nil => exact written [] []
  | .tail value => exact value.renders names
  | .letVar name _ rest => exact (written [] _).before (rest.renders _)
  | .letInit name _ initializer rest => exact ((initializer.renders names).andThen _).before (rest.renders _)
  | .statement _ e rest => exact (e.renders names).before (rest.renders names)
end

end Source

namespace World

section Order

variable {env : Env} {body : Source.Expr} {expected : Option Ty} {s : Session} {r : CheckResult}

/-- Nothing of the body that stands under a decision is done or bound without it exactly when nothing
escapes. An error leaves out what it stands for and changes no decision. -/
theorem runSession_decisions_kept_iff (new : s.outcome = none) (ended : runSession env body expected s = .ok r) :
    ((body.schedule env.scope.names).escapes = 0 → r.expr.effects.Subperm (body.effects env.scope.names)) ∧
      (r.expr.isWhole → (r.expr.effects.Perm (body.effects env.scope.names) ↔
        (body.schedule env.scope.names).escapes = 0)) := by
  obtain ⟨fewer, same⟩ := runSession_follows new ended
  have escaped := (body.renders env.scope.names).escaped
  refine ⟨fun none => ?_, fun whole => ?_⟩
  · exact fewer.subperm.trans (escaped.perm none).subperm
  · rw [same whole]
    exact escaped.perm_iff

/-- Events of the kinds selected (calls, or all effects) happen in the order of the text if no pair
crosses, and, where each is told apart from the others, only then. -/
theorem runSession_events_in_order_iff (new : s.outcome = none) (ended : runSession env body expected s = .ok r)
    (select : EffectKind → Bool) :
    ((body.schedule env.scope.names).crossings select = 0 →
      (events select r.expr.effects).Sublist (events select (body.effects env.scope.names))) ∧
      (r.expr.isWhole → (events select r.expr.effects).Perm (events select (body.effects env.scope.names)) ∧
        ((body.schedule env.scope.names).crossings select = 0 →
          events select r.expr.effects = events select (body.effects env.scope.names)) ∧
        ((events select (body.effects env.scope.names)).Nodup →
          events select r.expr.effects = events select (body.effects env.scope.names) →
          (body.schedule env.scope.names).crossings select = 0)) := by
  obtain ⟨fewer, same⟩ := runSession_follows new ended
  have crossed := (body.renders env.scope.names).crossed select
  refine ⟨fun none => ?_, fun whole => ?_⟩
  · rw [← crossed.eq none]
    exact (fewer.filter _).map _
  · rw [same whole]
    exact ⟨crossed.perm, crossed.eq, crossed.zero⟩

end Order

section Boxes

def box : Aggregate := ⟨8, "Box", .classDecl, [], default⟩

def boxTy : Ty := .aggregate box []

def boxFunction (id : Nat) (name : String) (inputs : List Variable) (outputTy : Ty) : Function where
  id := id
  name := name
  span := default
  hasSelf := false
  signature := .ok ⟨[], [], inputs, ⟨inputs.map fun _ => boxTy, outputTy, []⟩⟩

/-- A class `Box` with a field `flag`, and functions `first() -> bool`, `mk() -> Box` and
`test(b: Box) -> bool`. -/
def boxes : World where
  config := {}
  program := Prelude.program.addField ⟨9, "flag", box, default⟩ (.primitive .bool)
  scope := [[("first", .function (boxFunction 10 "first" [] (.primitive .bool))),
    ("mk", .function (boxFunction 11 "mk" [] boxTy)),
    ("test", .function (boxFunction 12 "test" [⟨13, .place, some "b", default⟩] (.primitive .bool)))]]
  nextSymbol := 14
  nextReport := 0

def columns (start stop : Nat) : Span := ⟨⟨1, start⟩, ⟨1, stop⟩⟩

def called (start stop : Nat) (name : String) (args : List Source.Expr) : Source.Expr :=
  .call (columns start stop) (.id default name) args

theorem ok_of_checkExpression {w : World} {e : Source.Expr}
    (checked : (w.checkExpression e).toOption.map (·.expr.isWhole) = some true) :
    ∃ r, runSession (.root w.scope) e none w.session = .ok r ∧ r.expr.isWhole := by
  cases ended : runSession (.root w.scope) e none w.session with
  | error failure =>
    rw [checkExpression, ended] at checked
    cases checked
  | ok r =>
    rw [checkExpression, ended] at checked
    exact ⟨r, rfl, Option.some.inj checked⟩

/-- `first() && test(mk())` -/
def firstAndTest : Source.Expr :=
  .binary (columns 0 21) .and default (called 0 7 "first" []) (called 11 21 "test" [called 16 20 "mk" []])

theorem runSession_decisions_kept_iff_test : boxes.session.outcome = none ∧
    ∃ r, runSession (.root boxes.scope) firstAndTest none boxes.session = .ok r ∧
      r.expr.effects.Perm (firstAndTest.effects boxes.scope.names) := by
  obtain ⟨r, ended, whole⟩ := ok_of_checkExpression (w := boxes) (e := firstAndTest) (by decide +kernel)
  have kept := (runSession_decisions_kept_iff rfl ended).2 whole
  exact ⟨rfl, r, ended, kept.2 (by decide +kernel)⟩

/-- `first() && mk().flag` -/
def firstAndFlag : Source.Expr :=
  .binary (columns 0 20) .and default (called 0 7 "first" [])
    (.dot (columns 11 20) (called 11 15 "mk" []) ⟨"flag", default⟩)

/-- The box is made and bound whether or not the left operand holds, and before it is evaluated. -/
theorem receiver_escapes :
    firstAndFlag.effects boxes.scope.names =
        [.plain .call (columns 0 7), ⟨[⟨columns 0 20, true⟩], .call, columns 11 15⟩,
          ⟨[⟨columns 0 20, true⟩], .bind, columns 11 15⟩] ∧
      (boxes.checkExpression firstAndFlag).toOption.map (fun r => (r.hasErrors, r.expr.effects)) =
        some (false, [.plain .call (columns 11 15), .plain .bind (columns 11 15), .plain .call (columns 0 7)]) :=
  ⟨by decide +kernel, by decide +kernel⟩

/-- `{ let x = mk(); first() && x.give.flag }` -/
def firstAndGiven : Source.Expr :=
  .block (columns 0 42) (.letInit ⟨"x", columns 6 7⟩ none (called 10 14 "mk" []) (.tail
    (.binary (columns 16 40) .and default (called 16 23 "first" []) (.dot (columns 27 40)
      (.permissionOp (columns 27 34) .give (.id (columns 27 28) "x")) ⟨"flag", default⟩))))

-- Only the binding escapes here: the box is given away even if the left operand does not hold.
example : (boxes.checkExpression firstAndGiven).toOption.map (fun r => (r.hasErrors, r.expr.effects)) =
    some (false, [.plain .call (columns 10 14), .plain .bind (columns 10 14), .plain .bind (columns 27 34),
      .plain .call (columns 16 23)]) := by decide +kernel

/-- `(mk().flag, first())` -/
def flagThenFirst : Source.Expr :=
  .tuple (columns 0 20) [.dot (columns 1 10) (called 1 5 "mk" []) ⟨"flag", default⟩, called 12 19 "first" []]

theorem runSession_events_in_order_iff_flag : boxes.session.outcome = none ∧
    ∃ r, runSession (.root boxes.scope) flagThenFirst none boxes.session = .ok r ∧
      events (· = .call) r.expr.effects = [(.call, columns 1 5), (.call, columns 12 19)] := by
  obtain ⟨r, ended, whole⟩ := ok_of_checkExpression (w := boxes) (e := flagThenFirst) (by decide +kernel)
  have kept := ((runSession_events_in_order_iff rfl ended (· = .call)).2 whole).2.1
  exact ⟨rfl, r, ended, (kept (by decide +kernel)).trans (by decide +kernel)⟩

/-- `(first(), mk().flag)` -/
def firstThenFlag : Source.Expr :=
  .tuple (columns 0 20) [called 1 8 "first" [], .dot (columns 10 19) (called 10 14 "mk" []) ⟨"flag", default⟩]

/-- The receiver of the second element is evaluated before the first element. -/
theorem later_element_first :
    events (· = .call) (firstThenFlag.effects boxes.scope.names) =
        [(.call, columns 1 8), (.call, columns 10 14)] ∧
      (boxes.checkExpression firstThenFlag).toOption.map
          (fun r => (r.hasErrors, events (· = .call) r.expr.effects)) =
        some (false, [(.call, columns 10 14), (.call, columns 1 8)]) :=
  ⟨by decide +kernel, by decide +kernel⟩

end Boxes

end World

end Ownership
