import Ownership.Decimal
import Ownership.Text.Units

namespace Ownership

inductive Json where
  | null
  | bool (b : Bool)
  | number (n : Decimal)
  | string (s : String)
  | array (elements : List Json)
  | object (members : List (String × Json))
deriving Inhabited

namespace Json

def get? (name : String) : Json → Option Json
  | object members => members.reverse.lookup name
  | _ => none

def hexDigit (n : Nat) : Char :=
  (Nat.toDigits 16 (n % 16)).headD '0'

def escapeUnit (unit : Nat) : List Char :=
  ['\\', 'u', hexDigit (unit / 4096), hexDigit (unit / 256), hexDigit (unit / 16), hexDigit unit]

def escapeChar (c : Char) : List Char :=
  if c = '"' then ['\\', '"']
  else if c = '\\' then ['\\', '\\']
  else if c.toNat < 32 then escapeUnit c.toNat
  else
    match Text.loneUnit? c with
    | some unit => escapeUnit unit
    | none => [c]

def quote (s : String) : String :=
  String.ofList ('"' :: s.toList.flatMap escapeChar ++ ['"'])

def renderNumber (d : Decimal) : String :=
  if 0 ≤ d.exponent ∧ d.magnitude ≤ 21 then toString (d.mantissa * powTen d.exponent)
  else toString d.mantissa ++ "e" ++ toString d.exponent

mutual
def render : Json → String
  | null => "null"
  | bool b => if b then "true" else "false"
  | number n => renderNumber n
  | string s => quote s
  | array elements => "[" ++ ",".intercalate (renderAll elements) ++ "]"
  | object members => "\x7b" ++ ",".intercalate (renderMembers members) ++ "\x7d"

def renderAll : List Json → List String
  | [] => []
  | v :: vs => v.render :: renderAll vs

def renderMembers : List (String × Json) → List String
  | [] => []
  | (name, v) :: rest => (quote name ++ ":" ++ v.render) :: renderMembers rest
end

end Json

end Ownership
