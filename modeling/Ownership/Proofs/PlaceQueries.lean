import Ownership.Proofs.Sessions

namespace Ownership

def Regime.placeless : Regime where
  placeArguments := False
  awaited _ := False
  barred _ := False
  guarded _ := False
  level _ := none
  places_barred := Variable.place_of_none

theorem Regime.placeless_free (v : Variable) : Regime.placeless.Free v := ⟨nofun, rfl⟩

def Failure.asksPlace : Failure → Bool
  | .violated (.placeQuery _ _) => true
  | .violated (.placeRequirement _ _) => true
  | _ => false

theorem Failure.Allowed.asksPlace {e : Failure} (allowed : e.Allowed .placeless) : e.asksPlace = false := by
  cases e with
  | reported r => rfl
  | violated v =>
    cases v with
    | placeQuery p place | placeRequirement p place => exact allowed.elim
    | _ => rfl

namespace World

/-- When no aggregate takes places and no declared type has a place for an argument, no check fails on a
predicate of a place. -/
theorem check_asks_no_place {w : World} (fits : w.Fits .placeless) (e : Source.Expr) :
    (∀ failure, w.checkExpression e = .error failure → failure.asksPlace = false) ∧
      ∀ f : Function, f.Fits .placeless →
        ∀ failure, w.checkFunctionBody f e = .error failure → failure.asksPlace = false := by
  refine ⟨fun failure failed => ?_, fun f declared failure failed => ?_⟩
  · have ends := ends_checkExpression fits (e := e) fun _ _ => id
    rw [failed] at ends
    exact Failure.Allowed.asksPlace ends
  · have ends := ends_checkFunctionBody fits declared (fun _ _ v _ => ⟨Regime.placeless_free v, nofun⟩) (e := e)
      fun _ _ => id
    rw [failed] at ends
    exact Failure.Allowed.asksPlace ends

/-- `struct Cell[kind p] { }` -/
def cell (kind : Kind) : Aggregate := ⟨9, "Cell", .structDecl, [⟨8, kind, some "p", default⟩], default⟩

def cells (kind : Kind) : World where
  config := {}
  program := Prelude.program
  scope := [("Cell", .aggregate (cell kind)) :: Prelude.items]
  nextSymbol := 10
  nextReport := 0

/-- `{ let x: bool; let r: Cell[argument]; let y: Cell[argument] = r.reference; }` -/
def borrowsCell (argument : String) : Source.Expr :=
  let named (name : String) (generics : List Source.Generic) : Source.Ty := .named default ⟨name, default⟩ [] generics
  let cellTy := named "Cell" [.ty (named argument [])]
  .block default (.letVar ⟨"x", default⟩ (some (named "bool" [])) (.letVar ⟨"r", default⟩ (some cellTy)
    (.letInit ⟨"y", default⟩ (some cellTy) (.permissionOp default .reference (.id default "r")) .nil)))

theorem fits_cells {kind : Kind} (other : kind ≠ .place) : (cells kind).Fits .placeless := by
  refine .of_entries (nofun) (Prelude.fits_members .placeless)
    (fun v _ => ⟨((Regime.placeless_free v).admits _).1, nofun⟩) fun group listed => ?_
  rw [List.mem_singleton.mp listed]
  refine List.forall_mem_cons.mpr ⟨⟨Entity.Fits.all (e := .aggregate (cell kind)) (.inr fun v generic => ?_) nofun,
    nofun⟩, fun entry member => ⟨Prelude.fits_items _ _ entry member, nofun⟩⟩
  rw [List.mem_singleton.mp generic]
  exact other

theorem check_asks_no_place_bool :
    ((cells .type).checkExpression (borrowsCell "bool")).toOption.map (·.hasErrors) = some false ∧
      (∀ failure, (cells .type).checkExpression (borrowsCell "bool") = .error failure → failure.asksPlace = false) ∧
      ∀ failure, (cells .type).checkFunctionBody Prelude.literal (borrowsCell "bool") = .error failure →
        failure.asksPlace = false := by
  obtain ⟨alone, body⟩ := check_asks_no_place (fits_cells (by decide : Kind.type ≠ .place)) (borrowsCell "bool")
  exact ⟨by decide +kernel, alone, body Prelude.literal (Prelude.fits_literal _)⟩

/-- The cell is asked whether it is copy, and so is the place in it. -/
theorem place_in_cell_is_asked :
    (match (cells .place).checkExpression (borrowsCell "x") with
      | .error failure => failure.asksPlace
      | .ok _ => false) = true := by
  decide +kernel

end World

end Ownership
