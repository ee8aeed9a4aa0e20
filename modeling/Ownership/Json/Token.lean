import Ownership.Json

namespace Ownership.Json

inductive Token where
  | openBrace
  | closeBrace
  | openBracket
  | closeBracket
  | comma
  | colon
  | literal (v : Json)

namespace Token

def digits : List Char → Nat → Nat → Nat × Nat × List Char
  | [], value, count => (value, count, [])
  | c :: cs, value, count =>
    if c.isDigit then digits cs (10 * value + (c.toNat - '0'.toNat)) (count + 1)
    else (value, count, c :: cs)

def exponent : List Char → Option Int
  | [] => some 0
  | mark :: rest =>
    if mark = 'e' ∨ mark = 'E' then
      let (negative, rest) := match rest with
        | '-' :: r => (true, r)
        | '+' :: r => (false, r)
        | r => (false, r)
      match digits rest 0 0 with
      | (value, count, []) =>
        if count = 0 then none else some (if negative then -(value : Int) else value)
      | _ => none
    else none

def unsigned (cs : List Char) : Option Decimal :=
  let (whole, count, rest) := digits cs 0 0
  let leadingZero : Bool := match cs with
    | '0' :: _ => true
    | _ => false
  if count = 0 ∨ (leadingZero ∧ count ≠ 1) then none
  else
    match rest with
    | '.' :: rest =>
      let (value, places, rest) := digits rest whole 0
      if places = 0 then none
      else (exponent rest).map fun e => ⟨value, e - places⟩
    | rest => (exponent rest).map fun e => ⟨whole, e⟩

def number (cs : List Char) : Option Decimal :=
  match cs with
  | '-' :: rest => (unsigned rest).map fun d => ⟨-d.mantissa, d.exponent⟩
  | _ => unsigned cs

def word (cs : List Char) : Option Json :=
  match String.ofList cs with
  | "null" => some .null
  | "true" => some (.bool true)
  | "false" => some (.bool false)
  | _ => none

def ofUnits : List Nat → List Char
  | [] => []
  | high :: low :: rest =>
    if 0xD800 ≤ high ∧ high < 0xDC00 ∧ 0xDC00 ≤ low ∧ low < 0xE000 then
      Char.ofNat (0x10000 + (high - 0xD800) * 0x400 + (low - 0xDC00)) :: ofUnits rest
    else single high :: ofUnits (low :: rest)
  | [unit] => [single unit]
where
  single (unit : Nat) : Char :=
    if 0xD800 ≤ unit ∧ unit < 0xE000 then Text.ofLoneUnit unit else Char.ofNat unit

inductive State where
  | idle
  | string (units : List Nat)
  | escape (units : List Nat)
  | unicode (units : List Nat) (remaining code : Nat)
  | number (chars : List Char)
  | word (chars : List Char)

def escaped (c : Char) : Option Nat :=
  match c with
  | '"' => some 34
  | '\\' => some 92
  | '/' => some 47
  | 'b' => some 8
  | 'f' => some 12
  | 'n' => some 10
  | 'r' => some 13
  | 't' => some 9
  | _ => none

def hexValue (c : Char) : Option Nat :=
  if c.isDigit then some (c.toNat - '0'.toNat)
  else if 'a' ≤ c ∧ c ≤ 'f' then some (c.toNat - 'a'.toNat + 10)
  else if 'A' ≤ c ∧ c ≤ 'F' then some (c.toNat - 'A'.toNat + 10)
  else none

def idle (tokens : List Token) (c : Char) : Option (List Token × State) :=
  if c = ' ' ∨ c = '\t' ∨ c = '\n' ∨ c = '\r' then some (tokens, .idle)
  else if c = '\x7b' then some (.openBrace :: tokens, .idle)
  else if c = '\x7d' then some (.closeBrace :: tokens, .idle)
  else if c = '[' then some (.openBracket :: tokens, .idle)
  else if c = ']' then some (.closeBracket :: tokens, .idle)
  else if c = ',' then some (.comma :: tokens, .idle)
  else if c = ':' then some (.colon :: tokens, .idle)
  else if c = '"' then some (tokens, .string [])
  else if c = '-' ∨ c.isDigit then some (tokens, .number [c])
  else if c.isAlpha then some (tokens, .word [c])
  else none

def close (tokens : List Token) : State → Option (List Token)
  | .idle => some tokens
  | .number chars => (number chars.reverse).map fun n => .literal (.number n) :: tokens
  | .word chars => (word chars.reverse).map fun v => .literal v :: tokens
  | _ => none

def continuesNumber (c : Char) : Bool :=
  c.isDigit || c == '+' || c == '-' || c == '.' || c == 'e' || c == 'E'

def step (tokens : List Token) (state : State) (c : Char) : Option (List Token × State) :=
  match state with
  | .idle => idle tokens c
  | .string units =>
    if c = '"' then
      some (.literal (.string (String.ofList (ofUnits units.reverse))) :: tokens, .idle)
    else if c = '\\' then some (tokens, .escape units)
    else if c.toNat < 32 then none
    else some (tokens, .string (c.toNat :: units))
  | .escape units =>
    if c = 'u' then some (tokens, .unicode units 4 0)
    else (escaped c).map fun unit => (tokens, .string (unit :: units))
  | .unicode units remaining code =>
    (hexValue c).map fun digit =>
      let code := 16 * code + digit
      if remaining ≤ 1 then (tokens, .string (code :: units))
      else (tokens, .unicode units (remaining - 1) code)
  | .number chars =>
    if continuesNumber c then some (tokens, .number (c :: chars))
    else (close tokens (.number chars)).bind fun tokens => idle tokens c
  | .word chars =>
    if c.isAlpha then some (tokens, .word (c :: chars))
    else (close tokens (.word chars)).bind fun tokens => idle tokens c

def scanFrom (tokens : List Token) (state : State) : List Char → Option (List Token)
  | [] => (close tokens state).map List.reverse
  | c :: cs =>
    match step tokens state c with
    | some (tokens, state) => scanFrom tokens state cs
    | none => none

def scan (text : String) : Option (List Token) :=
  scanFrom [] .idle text.toList

end Token

end Ownership.Json
