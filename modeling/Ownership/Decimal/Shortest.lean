import Ownership.Decimal

namespace Ownership

namespace Binary

def floorDiv (b : Binary) (exponent : Int) : Nat :=
  let numerator := b.mantissa * powTwo b.exponent * powTen (-exponent)
  let denominator := powTwo (-b.exponent) * powTen exponent
  numerator / denominator

/-- How twice the number compares with `sum * 10 ^ exponent`. -/
def compareDouble (b : Binary) (sum : Nat) (exponent : Int) : Ordering :=
  compare (2 * b.mantissa * powTwo b.exponent * powTen (-exponent))
    (sum * powTen exponent * powTwo (-b.exponent))

def nearer (b : Binary) (below : Nat) (exponent : Int) : Nat :=
  match b.compareDouble (2 * below + 1) exponent with
  | .lt => below
  | .gt => below + 1
  | .eq => if below % 2 = 0 then below else below + 1

def readsBack (b : Binary) (d : Decimal) : Bool :=
  d.mantissa ≠ 0 ∧ d.nearest? = some b

/-- Searches the grids of one, two, … more digits for the first that has a number which reads back as
`b`, the nearer one if there are two. -/
def shortestFrom (b : Binary) (exponent : Int) : Nat → Decimal
  | 0 => ⟨b.floorDiv exponent, exponent⟩
  | fuel + 1 =>
    let below := b.floorDiv exponent
    let low : Decimal := ⟨below, exponent⟩
    let high : Decimal := ⟨below + 1, exponent⟩
    if b.readsBack low then
      if b.readsBack high then ⟨b.nearer below exponent, exponent⟩ else low
    else if b.readsBack high then high
    else b.shortestFrom (exponent - 1) fuel

/-- The first grid on which the number may have a digit: the greatest power of ten that is not above
it, searched downwards. -/
def topExponent (b : Binary) (exponent : Int) : Nat → Int
  | 0 => exponent
  | fuel + 1 => if b.floorDiv exponent = 0 then b.topExponent (exponent - 1) fuel else exponent

def shortest (b : Binary) : Decimal :=
  b.shortestFrom (b.topExponent 309 640) 20

end Binary

namespace Decimal

def trimZeros (d : Decimal) : Decimal :=
  let zeros := ((Nat.toDigits 10 d.mantissa.natAbs).reverse.takeWhile (· == '0')).length
  if d.mantissa = 0 then ⟨0, 0⟩ else ⟨d.mantissa / powTen zeros, d.exponent + zeros⟩

def held? (d : Decimal) : Option Decimal := do
  let b ← d.nearest?
  if b.mantissa = 0 then return ⟨0, 0⟩
  let short := b.shortest.trimZeros
  return if d.mantissa < 0 then ⟨-short.mantissa, short.exponent⟩ else short

def positiveText (d : Decimal) : String :=
  let digits := Nat.toDigits 10 d.mantissa.natAbs
  let point := d.magnitude
  if 0 ≤ d.exponent ∧ point ≤ 21 then
    String.ofList (digits ++ List.replicate d.exponent.toNat '0')
  else if 0 < point ∧ point ≤ 21 then
    String.ofList (digits.take point.toNat) ++ "." ++ String.ofList (digits.drop point.toNat)
  else if -6 < point ∧ point ≤ 0 then
    "0." ++ String.ofList (List.replicate (-point).toNat '0' ++ digits)
  else
    let fraction := if digits.length = 1 then "" else "." ++ String.ofList (digits.drop 1)
    let sign := if 0 < point then "+" else "-"
    String.ofList (digits.take 1) ++ fraction ++ "e" ++ sign ++ toString (point - 1).natAbs

def text (d : Decimal) : String :=
  let sign := if d.mantissa < 0 then "-" else ""
  match d.held? with
  | none => sign ++ "Infinity"
  | some ⟨0, _⟩ => "0"
  | some short => sign ++ short.positiveText

end Decimal

end Ownership
