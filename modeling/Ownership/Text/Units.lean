namespace Ownership.Text

/-- The character that holds the first half of a pair, `U+D800`, when it stands alone. -/
def loneBase : Nat := 0xFF000

def ofLoneUnit (unit : Nat) : Char := Char.ofNat (loneBase + (unit - 0xD800))

def loneUnit? (c : Char) : Option Nat :=
  if loneBase ≤ c.toNat ∧ c.toNat < loneBase + 0x800 then some (0xD800 + (c.toNat - loneBase))
  else none

def encodable (s : String) : String :=
  s.map fun c => if (loneUnit? c).isSome then '�' else c

def charUnits (c : Char) : List Nat :=
  let n := c.toNat
  match loneUnit? c with
  | some unit => [unit]
  | none =>
    if n < 0x10000 then [n]
    else [0xD800 + (n - 0x10000) / 0x400, 0xDC00 + (n - 0x10000) % 0x400]

def units (s : String) : List Nat := s.toList.flatMap charUnits

def unitsLe : List Nat → List Nat → Bool
  | [], _ => true
  | _ :: _, [] => false
  | a :: as, b :: bs => if a < b then true else if b < a then false else unitsLe as bs

def keysLe : List (List Nat) → List (List Nat) → Bool
  | a :: as, b :: bs => if a = b then keysLe as bs else unitsLe a b
  | _, _ => true

def sortByKeys {α : Type} (keys : α → List (List Nat)) (xs : List α) : List α :=
  ((xs.map fun x => (keys x, x)).mergeSort fun a b => keysLe a.1 b.1).map (·.2)

end Ownership.Text
