import Ownership.Decimal.Shortest
import Ownership.Json

namespace Ownership.Json

inductive Fault where
  | malformed (what : String)
  | refused (reason : String)
deriving Inhabited

abbrev Decoded := Except Fault

def malformed {α : Type} (what : String) : Decoded α := .error (.malformed what)

mutual
def depth : Json → Nat
  | array elements => depthAll elements + 1
  | object members => depthMembers members + 1
  | _ => 1

def depthAll : List Json → Nat
  | [] => 0
  | v :: vs => max v.depth (depthAll vs)

def depthMembers : List (String × Json) → Nat
  | [] => 0
  | (_, v) :: rest => max v.depth (depthMembers rest)
end

def unexpected {α : Type} (what : String) (j : Json) : Decoded α :=
  malformed ("expected " ++ what ++ ", found " ++ j.render)

def asString : Json → Decoded String
  | string s => .ok s
  | j => unexpected "a string" j

def asBool : Json → Decoded Bool
  | bool b => .ok b
  | j => unexpected "a boolean" j

def asDecimal : Json → Decoded Decimal
  | number d => .ok d
  | j => unexpected "a number" j

def asNat (j : Json) : Decoded Nat := do return (← j.asDecimal).floor.toNat

def asArray : Json → Decoded (List Json)
  | array elements => .ok elements
  | j => unexpected "an array" j

def asNamed {α : Type} (what : String) (ofName? : String → Option α) (j : Json) : Decoded α := do
  match ofName? (← j.asString) with
  | some a => return a
  | none => unexpected what j

def field (j : Json) (name : String) : Decoded Json :=
  match j.get? name with
  | some v => .ok v
  | none => malformed ("no field " ++ name)

def field? (j : Json) (name : String) : Option Json :=
  match j.get? name with
  | some null => none
  | v => v

def arrayField (j : Json) (name : String) : Decoded (List Json) :=
  match j.field? name with
  | some v => v.asArray
  | none => .ok []

def stringField (j : Json) (name : String) : Decoded String := do (← j.field name).asString

def optional {α : Type} (read : Json → Decoded α) (j : Option Json) : Decoded (Option α) :=
  match j with
  | some v => some <$> read v
  | none => .ok none

def nth (js : List Json) (i : Nat) : Decoded Json :=
  match js[i]? with
  | some j => .ok j
  | none => malformed "an element is missing"

def ofNat (n : Nat) : Json := number (.ofNat n)

def ofStrings (ss : List String) : Json := array (ss.map string)

def ofOption {α : Type} (write : α → Json) : Option α → Json
  | some a => write a
  | none => null

mutual
def plain : Json → String
  | null => "null"
  | bool b => if b then "true" else "false"
  | number d => d.text
  | string s => s
  | array elements => ",".intercalate (plainAll elements)
  | object _ => "[object Object]"

def plainAll : List Json → List String
  | [] => []
  | null :: vs => "" :: plainAll vs
  | v :: vs => v.plain :: plainAll vs
end

end Ownership.Json
