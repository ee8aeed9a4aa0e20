import Mathlib.Algebra.Order.Group.Multiset
import Mathlib.Data.Set.Insert
import Ownership.Proofs.Requests
import Ownership.Resolution

namespace Ownership

inductive Entity.Offers : Entity → Variable → Prop where
  | var {v : Variable} (place : v.kind = .place) : Offers (.var v) v
  | item {name : String} {span : Span} {items : List (String × Entity)} {entry : String × Entity}
    {v : Variable} (listed : entry ∈ items) (offers : Offers entry.2 v) :
    Offers (.module name span items) v

def Scope.variables (s : Scope) : Set Variable :=
  {v | ∃ group ∈ s, ∃ entry ∈ group, entry.2.Offers v}

def Variable.ids (vs : List Variable) : Multiset Nat := (vs.map Variable.id : List Nat)

namespace Variable

@[simp] theorem ids_nil : ids [] = 0 := rfl

@[simp] theorem ids_cons (v : Variable) (vs : List Variable) : ids (v :: vs) = {v.id} + ids vs := rfl

@[simp] theorem ids_append (vs ws : List Variable) : ids (vs ++ ws) = ids vs + ids ws := by
  rw [ids, List.map_append, ← Multiset.coe_add]
  rfl

end Variable

namespace Core

def PlaceExpr.ScopedIn (visible : Set Variable) : PlaceExpr → Prop
  | .var _ _ v => v ∈ visible
  | .field _ _ owner _ => owner.ScopedIn visible
  | .error _ => True

mutual
def Expr.ScopedIn (visible : Set Variable) : Expr → Prop
  | .mk _ _ node => node.ScopedIn visible

def Node.ScopedIn (visible : Set Variable) : Node → Prop
  | .semi first rest => first.ScopedIn visible ∧ rest.ScopedIn visible
  | .tuple elements => Expr.AllScopedIn visible elements
  | .integral _ => True
  | .bytes _ => True
  | .declare v _ body => body.ScopedIn (insert v visible)
  | .letIn v _ initializer body => initializer.ScopedIn visible ∧ body.ScopedIn (insert v visible)
  | .await future _ => future.ScopedIn visible
  | .assign place value => place.ScopedIn visible ∧ value.ScopedIn visible
  | .permissionOp _ place => place.ScopedIn visible
  | .call _ _ args => ∀ v ∈ args, v ∈ visible
  | .ret value => value.ScopedIn visible
  | .not operand _ => operand.ScopedIn visible
  | .negate operand _ => operand.ScopedIn visible
  | .binary _ left right => left.ScopedIn visible ∧ right.ScopedIn visible
  | .cond arms => Arm.AllScopedIn visible arms
  | .error _ => True

def Arm.ScopedIn (visible : Set Variable) : Arm → Prop
  | .when condition body => condition.ScopedIn visible ∧ body.ScopedIn visible
  | .otherwise body => body.ScopedIn visible

def Expr.AllScopedIn (visible : Set Variable) : List Expr → Prop
  | [] => True
  | e :: es => e.ScopedIn visible ∧ Expr.AllScopedIn visible es

def Arm.AllScopedIn (visible : Set Variable) : List Arm → Prop
  | [] => True
  | a :: as => a.ScopedIn visible ∧ Arm.AllScopedIn visible as
end

mutual
def Expr.binders : Expr → List Variable
  | .mk _ _ node => node.binders

def Node.binders : Node → List Variable
  | .semi first rest => first.binders ++ rest.binders
  | .tuple elements => Expr.allBinders elements
  | .integral _ => []
  | .bytes _ => []
  | .declare v _ body => v :: body.binders
  | .letIn v _ initializer body => v :: (initializer.binders ++ body.binders)
  | .await future _ => future.binders
  | .assign _ value => value.binders
  | .permissionOp _ _ => []
  | .call _ _ _ => []
  | .ret value => value.binders
  | .not operand _ => operand.binders
  | .negate operand _ => operand.binders
  | .binary _ left right => left.binders ++ right.binders
  | .cond arms => Arm.allBinders arms
  | .error _ => []

def Arm.binders : Arm → List Variable
  | .when condition body => condition.binders ++ body.binders
  | .otherwise body => body.binders

def Expr.allBinders : List Expr → List Variable
  | [] => []
  | e :: es => e.binders ++ Expr.allBinders es

def Arm.allBinders : List Arm → List Variable
  | [] => []
  | a :: as => a.binders ++ Arm.allBinders as
end

/-- The tree is scoped in what is visible around it, and binds every variable once, each with a number
that is not below `first`. -/
structure Expr.WellScoped (visible : Set Variable) (first : Nat) (e : Expr) : Prop where
  inScope : e.ScopedIn visible
  once : (e.binders.map Variable.id).Nodup
  fresh : ∀ v ∈ e.binders, first ≤ v.id

section Mono

variable {visible visible' : Set Variable}

theorem PlaceExpr.ScopedIn.mono (subset : visible ⊆ visible') :
    (p : PlaceExpr) → p.ScopedIn visible → p.ScopedIn visible'
  | .var _ _ _, inScope => subset inScope
  | .field _ _ owner _, inScope => PlaceExpr.ScopedIn.mono subset owner inScope
  | .error _, _ => trivial

mutual
theorem Expr.ScopedIn.mono {visible visible' : Set Variable} (subset : visible ⊆ visible') :
    (e : Expr) → e.ScopedIn visible → e.ScopedIn visible'
  | .mk _ _ node, inScope => Node.ScopedIn.mono subset node inScope

theorem Node.ScopedIn.mono {visible visible' : Set Variable} (subset : visible ⊆ visible') :
    (n : Node) → n.ScopedIn visible → n.ScopedIn visible'
  | .semi first rest, inScope =>
    ⟨Expr.ScopedIn.mono subset first inScope.1, Expr.ScopedIn.mono subset rest inScope.2⟩
  | .tuple elements, inScope => Expr.AllScopedIn.mono subset elements inScope
  | .integral _, _ | .bytes _, _ => trivial
  | .declare _ _ body, inScope => Expr.ScopedIn.mono (Set.insert_subset_insert subset) body inScope
  | .letIn _ _ initializer body, inScope =>
    ⟨Expr.ScopedIn.mono subset initializer inScope.1,
      Expr.ScopedIn.mono (Set.insert_subset_insert subset) body inScope.2⟩
  | .await future _, inScope => Expr.ScopedIn.mono subset future inScope
  | .assign place value, inScope =>
    ⟨PlaceExpr.ScopedIn.mono subset place inScope.1, Expr.ScopedIn.mono subset value inScope.2⟩
  | .permissionOp _ place, inScope => PlaceExpr.ScopedIn.mono subset place inScope
  | .call _ _ _, inScope => fun v member => subset (inScope v member)
  | .ret value, inScope => Expr.ScopedIn.mono subset value inScope
  | .not operand _, inScope | .negate operand _, inScope => Expr.ScopedIn.mono subset operand inScope
  | .binary _ left right, inScope =>
    ⟨Expr.ScopedIn.mono subset left inScope.1, Expr.ScopedIn.mono subset right inScope.2⟩
  | .cond arms, inScope => Arm.AllScopedIn.mono subset arms inScope
  | .error _, _ => trivial

theorem Arm.ScopedIn.mono {visible visible' : Set Variable} (subset : visible ⊆ visible') :
    (a : Arm) → a.ScopedIn visible → a.ScopedIn visible'
  | .when condition body, inScope =>
    ⟨Expr.ScopedIn.mono subset condition inScope.1, Expr.ScopedIn.mono subset body inScope.2⟩
  | .otherwise body, inScope => Expr.ScopedIn.mono subset body inScope

theorem Expr.AllScopedIn.mono {visible visible' : Set Variable} (subset : visible ⊆ visible') :
    (es : List Expr) → Expr.AllScopedIn visible es → Expr.AllScopedIn visible' es
  | [], _ => trivial
  | e :: es, inScope => ⟨Expr.ScopedIn.mono subset e inScope.1, Expr.AllScopedIn.mono subset es inScope.2⟩

theorem Arm.AllScopedIn.mono {visible visible' : Set Variable} (subset : visible ⊆ visible') :
    (as : List Arm) → Arm.AllScopedIn visible as → Arm.AllScopedIn visible' as
  | [], _ => trivial
  | a :: as, inScope => ⟨Arm.ScopedIn.mono subset a inScope.1, Arm.AllScopedIn.mono subset as inScope.2⟩
end

theorem Expr.allScopedIn_iff {es : List Expr} : Expr.AllScopedIn visible es ↔ ∀ e ∈ es, e.ScopedIn visible := by
  induction es with
  | nil => simp [Expr.AllScopedIn]
  | cons e es ih => simp [Expr.AllScopedIn, ih]

theorem Expr.allBinders_eq (es : List Expr) : Expr.allBinders es = es.flatMap Expr.binders := by
  induction es with
  | nil => rfl
  | cons e es ih => rw [Expr.allBinders, ih, List.flatMap_cons]

end Mono

def Widens (P : Set Variable → Prop) : Prop :=
  ∀ ⦃visible visible'⦄, visible ⊆ visible' → P visible → P visible'

namespace Temporary

variable {visible visible' : Set Variable} {ts us : List Temporary}

def after (visible : Set Variable) : List Temporary → Set Variable
  | [] => visible
  | t :: ts => after (insert t.var visible) ts

def AllScopedIn (visible : Set Variable) : List Temporary → Prop
  | [] => True
  | t :: ts => t.initializer.ScopedIn visible ∧ AllScopedIn (insert t.var visible) ts

def binders (t : Temporary) : List Variable := t.var :: t.initializer.binders

theorem after_append (visible : Set Variable) (ts us : List Temporary) :
    after visible (ts ++ us) = after (after visible ts) us := by
  induction ts generalizing visible with
  | nil => rfl
  | cons t ts ih => exact ih _

theorem after_mono (subset : visible ⊆ visible') (ts : List Temporary) : after visible ts ⊆ after visible' ts := by
  induction ts generalizing visible visible' with
  | nil => exact subset
  | cons t ts ih => exact ih (Set.insert_subset_insert subset)

theorem subset_after (visible : Set Variable) (ts : List Temporary) : visible ⊆ after visible ts := by
  induction ts generalizing visible with
  | nil => exact subset_rfl
  | cons t ts ih => exact (Set.subset_insert _ _).trans (ih _)

theorem mem_after {t : Temporary} (member : t ∈ ts) : t.var ∈ after visible ts := by
  induction ts generalizing visible with
  | nil => cases member
  | cons u ts ih =>
    rcases List.mem_cons.mp member with rfl | member
    · exact subset_after _ ts (Set.mem_insert _ _)
    · exact ih member

theorem AllScopedIn.mono (inScope : AllScopedIn visible ts) (subset : visible ⊆ visible') :
    AllScopedIn visible' ts := by
  induction ts generalizing visible visible' with
  | nil => trivial
  | cons t ts ih =>
    exact ⟨Expr.ScopedIn.mono subset _ inScope.1, ih inScope.2 (Set.insert_subset_insert subset)⟩

theorem allScopedIn_of_forall (inScope : ∀ t ∈ ts, t.initializer.ScopedIn visible) : AllScopedIn visible ts := by
  induction ts generalizing visible with
  | nil => trivial
  | cons t ts ih =>
    refine ⟨inScope t List.mem_cons_self, ih fun u member => ?_⟩
    exact Expr.ScopedIn.mono (Set.subset_insert _ _) _ (inScope u (List.mem_cons_of_mem _ member))

theorem allScopedIn_append :
    AllScopedIn visible (ts ++ us) ↔ AllScopedIn visible ts ∧ AllScopedIn (after visible ts) us := by
  induction ts generalizing visible with
  | nil => simp [AllScopedIn, after]
  | cons t ts ih => simp [AllScopedIn, after, ih, and_assoc]

def Around (visible : Set Variable) (ts : List Temporary) (P : Set Variable → Prop) : Prop :=
  AllScopedIn visible ts ∧ P (after visible ts)

section Around

variable {P Q : Set Variable → Prop}

theorem Around.imp (h : Around visible ts P) (imp : ∀ inner, visible ⊆ inner → P inner → Q inner) :
    Around visible ts Q := ⟨h.1, imp _ (subset_after visible ts) h.2⟩

theorem Around.mono (h : Around visible ts P) (mono : Widens P) (subset : visible ⊆ visible') :
    Around visible' ts P := ⟨h.1.mono subset, mono (after_mono subset ts) h.2⟩

theorem Around.append (first : Around visible ts P) (second : Around visible us Q) (monoP : Widens P)
    (monoQ : Widens Q) : Around visible (ts ++ us) fun inner => P inner ∧ Q inner := by
  have later : Around (after visible ts) us Q := second.mono monoQ (subset_after visible ts)
  refine ⟨allScopedIn_append.mpr ⟨first.1, later.1⟩, ?_⟩
  rw [after_append]
  exact ⟨monoP (subset_after _ us) first.2, later.2⟩

end Around

end Temporary

theorem Expr.monotone_scopedIn (e : Expr) : Widens fun visible => e.ScopedIn visible :=
  fun _ _ subset => Expr.ScopedIn.mono subset e

theorem PlaceExpr.monotone_scopedIn (p : PlaceExpr) : Widens fun visible => p.ScopedIn visible :=
  fun _ _ subset => PlaceExpr.ScopedIn.mono subset p

theorem Expr.scopedIn_enclose {visible : Set Variable} {e : Expr} {ts : List Temporary} :
    (e.enclose ts).ScopedIn visible ↔ Temporary.Around visible ts fun inner => e.ScopedIn inner := by
  induction ts generalizing visible with
  | nil => simp [Expr.enclose, Temporary.Around, Temporary.AllScopedIn, Temporary.after]
  | cons t ts ih =>
    have unfolded : (e.enclose (t :: ts)).ScopedIn visible ↔
        t.initializer.ScopedIn visible ∧ (e.enclose ts).ScopedIn (insert t.var visible) := Iff.rfl
    rw [unfolded, ih]
    exact and_assoc.symm

theorem Expr.binders_enclose (e : Expr) (ts : List Temporary) :
    (e.enclose ts).binders = ts.flatMap Temporary.binders ++ e.binders := by
  induction ts with
  | nil => rfl
  | cons t ts ih =>
    have unfolded : (e.enclose (t :: ts)).binders =
        t.var :: (t.initializer.binders ++ (e.enclose ts).binders) := rfl
    rw [unfolded, ih]
    simp [Temporary.binders]

end Core

section Names

variable {v w : Variable} {r found : Resolution} {name : String} {span : Span}

theorem Entity.mem_of_lookup {entries : List (String × Entity)} {e : Entity}
    (found : entries.lookup name = some e) : (name, e) ∈ entries := by
  obtain ⟨before, rest, split, _⟩ := List.lookup_eq_some_iff.mp found
  rw [split]
  exact List.mem_append_right _ List.mem_cons_self

theorem Scope.mem_variables_of_resolve {s : Scope} (resolved : s.resolve name span = .ok r)
    (offers : r.entity.Offers v) : v ∈ s.variables := by
  simp only [Scope.resolve, Scope.resolve?] at resolved
  cases looked : s.lookup name with
  | some e =>
    obtain rfl : (⟨e, []⟩ : Resolution) = r := by simpa [looked] using resolved
    obtain ⟨group, listed, inGroup⟩ := List.exists_of_findSome?_eq_some looked
    exact ⟨group, listed, (name, e), Entity.mem_of_lookup inGroup, offers⟩
  | none =>
    -- The name of a primitive type offers nothing.
    cases primitive : Primitive.ofName? name with
    | none => simp [looked, primitive] at resolved
    | some q =>
      obtain rfl : (⟨.primitive q, []⟩ : Resolution) = r := by simpa [looked, primitive] using resolved
      cases offers

theorem Resolution.offers_of_relative {p : Program} (resolved : r.relative p name span = .ok (.found found))
    (offers : found.entity.Offers v) : r.entity.Offers v := by
  unfold Resolution.relative at resolved
  split at resolved
  · rename_i moduleName moduleSpan items isModule
    split at resolved
    · rename_i e looked
      obtain rfl : (⟨e, []⟩ : Resolution) = found := by simpa using resolved
      rw [isModule]
      exact .item (Entity.mem_of_lookup looked) offers
    · cases resolved
  · -- Members of an aggregate are functions and fields, which offer nothing.
    split at resolved
    all_goals cases resolved
    all_goals cases offers
  · cases resolved

theorem Resolution.eq_of_relative {p : Program}
    (resolved : r.relative p name span = .ok (.notFound found)) : found = r := by
  unfold Resolution.relative at resolved
  split at resolved
  · split at resolved <;> cases resolved
  · split at resolved <;> cases resolved
    rfl
  · cases resolved
    rfl

theorem Env.variables_withLocal (env : Env) (name : String) (v : Variable) :
    (env.withLocal name v).scope.variables ⊆ insert v env.scope.variables := by
  rintro w ⟨group, listed, entry, inGroup, offers⟩
  rcases List.mem_cons.mp listed with rfl | listed
  · obtain rfl := List.mem_singleton.mp inGroup
    cases offers
    exact Set.mem_insert _ _
  · exact Set.mem_insert_of_mem _ ⟨group, listed, entry, inGroup, offers⟩

end Names

/-- What was found is scoped inside the bindings of its temporaries. A name offers only what is visible
outside of them, so that it stands without them. -/
def Found.ScopedIn (outer inner : Set Variable) : Found → Prop
  | .place p => p.ScopedIn inner
  | .value e => e.ScopedIn inner
  | .method self _ _ _ => self.ScopedIn inner
  | .name r => ∀ v, r.entity.Offers v → v ∈ outer

def Found.binders : Found → List Variable
  | .place _ => []
  | .value e => e.binders
  | .method self _ _ _ => self.binders
  | .name _ => []

namespace Finding

def ScopedIn (visible : Set Variable) (f : Finding) : Prop :=
  Core.Temporary.Around visible f.temporaries (f.found.ScopedIn visible)

def binders (f : Finding) : List Variable :=
  f.temporaries.flatMap Core.Temporary.binders ++ f.found.binders

theorem ScopedIn.mono {visible visible' : Set Variable} {f : Finding} (inScope : f.ScopedIn visible)
    (subset : visible ⊆ visible') : f.ScopedIn visible' := by
  obtain ⟨temporaries, found⟩ := inScope
  refine ⟨temporaries.mono subset, ?_⟩
  have inner := Core.Temporary.after_mono subset f.temporaries
  revert found
  cases f.found with
  | place p => exact Core.PlaceExpr.ScopedIn.mono inner p
  | value e => exact Core.Expr.ScopedIn.mono inner e
  | method self idSpan fn generics => exact Core.Expr.ScopedIn.mono inner self
  | name r => exact fun found v offers => subset (found v offers)

@[simp] theorem ids_ofExpr (e : Core.Expr) (ts : List Core.Temporary) :
    Variable.ids (ofExpr e ts).binders = Variable.ids (ts.flatMap Core.Temporary.binders) + Variable.ids e.binders := by
  simp [binders, ofExpr, Found.binders]

@[simp] theorem ids_ofPlace (p : Core.PlaceExpr) (ts : List Core.Temporary) :
    Variable.ids (ofPlace p ts).binders = Variable.ids (ts.flatMap Core.Temporary.binders) := by
  simp [binders, ofPlace, Found.binders]

theorem scopedIn_ofReport (visible : Set Variable) (r : Report) : (ofReport r).ScopedIn visible :=
  ⟨trivial, trivial⟩

end Finding

end Ownership
