namespace Ownership

def powTen (exponent : Int) : Nat := Nat.pow 10 exponent.toNat

def powTwo (exponent : Int) : Nat := Nat.pow 2 exponent.toNat

/-- The number `mantissa * 10 ^ exponent`. -/
structure Decimal where
  mantissa : Int
  exponent : Int
deriving DecidableEq

/-- The number `mantissa * 2 ^ exponent`. -/
structure Binary where
  mantissa : Nat
  exponent : Int
deriving DecidableEq

namespace Binary

/-- The nearest integer to `numerator / denominator`; a tie goes to the even one. -/
def roundDiv (numerator denominator : Nat) : Nat :=
  let q := numerator / denominator
  let r := numerator % denominator
  if 2 * r < denominator then q
  else if denominator < 2 * r then q + 1
  else if q % 2 = 0 then q else q + 1

/-- The number of 53 significant bits nearest to a positive fraction, or `none` when it is too large
for one. -/
def ofFraction? (numerator denominator : Nat) : Option Binary :=
  let magnitude : Int := (Nat.log2 numerator : Int) - (Nat.log2 denominator : Int)
  let below : Bool :=
    if 0 ≤ magnitude then numerator < denominator * powTwo magnitude
    else numerator * powTwo (-magnitude) < denominator
  let top := if below then magnitude - 1 else magnitude
  let exponent := max (top - 52) (-1074)
  let mantissa :=
    if 0 ≤ exponent then roundDiv numerator (denominator * powTwo exponent)
    else roundDiv (numerator * powTwo (-exponent)) denominator
  let rounded : Binary :=
    if mantissa = powTwo 53 then ⟨powTwo 52, exponent + 1⟩ else ⟨mantissa, exponent⟩
  if 971 < rounded.exponent then none else some rounded

def toNat? (b : Binary) : Option Nat :=
  if 0 ≤ b.exponent then some (b.mantissa * powTwo b.exponent)
  else
    let scale := powTwo (-b.exponent)
    if b.mantissa % scale = 0 then some (b.mantissa / scale) else none

end Binary

namespace Decimal

def ofNat (n : Nat) : Decimal := ⟨n, 0⟩

def floor (d : Decimal) : Int :=
  if 0 ≤ d.exponent then d.mantissa * powTen d.exponent
  else d.mantissa / powTen (-d.exponent)

def magnitude (d : Decimal) : Int :=
  (Nat.toDigits 10 d.mantissa.natAbs).length + d.exponent

def nearest? (d : Decimal) : Option Binary :=
  let m := d.mantissa.natAbs
  if m = 0 ∨ d.magnitude < -400 then some ⟨0, 0⟩
  else if 310 < d.magnitude then none
  else if 0 ≤ d.exponent then Binary.ofFraction? (m * powTen d.exponent) 1
  else Binary.ofFraction? m (powTen (-d.exponent))

def toPositive? (d : Decimal) : Option Nat :=
  if d.mantissa ≤ 0 then none
  else
    match d.nearest?.bind Binary.toNat? with
    | some 0 => none
    | n => n

end Decimal

end Ownership
