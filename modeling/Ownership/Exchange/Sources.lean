import Ownership.Exchange.Diagnostics
import Ownership.Source

namespace Ownership

namespace Source

open Json (Decoded)

def pathOfJson (s : Span) (j : Json) : Decoded (Name × List Name) := do
  match (← j.asString).splitOn "." with
  | [] => Json.unexpected "a path" j
  | first :: rest => return (⟨first, s⟩, rest.map fun id => ⟨id, s⟩)

def Place.ofJson (s : Span) (j : Json) : Decoded Place := do
  let (root, fields) ← pathOfJson s j
  return ⟨root, fields⟩

def Perm.ofJson (j : Json) : Decoded Perm := do
  let s ← Span.ofNode j
  match ← j.stringField "p" with
  | "my" => return my s
  | "our" => return our s
  | "shared" => return shared s (← (← j.arrayField "places").mapM (Place.ofJson s))
  | "leased" => return leased s (← (← j.arrayField "places").mapM (Place.ofJson s))
  | "named" =>
    let name ← Json.optional Json.asString (j.field? "name")
    return named s (name.map fun id => ⟨id, s⟩)
  | _ => Json.unexpected "a permission" j

def Generic.ofJsonWith (ty : Json → Decoded Ty) (j : Json) : Decoded Generic := do
  match j.get? "p" with
  | some _ => return perm (← Perm.ofJson j)
  | none => return Generic.ty (← ty j)

def Ty.ofJsonFrom : (fuel : Nat) → Json → Decoded Ty
  | 0, j => Json.unexpected "a type" j
  | fuel + 1, j => do
    let s ← Span.ofNode j
    match j.get? "name", j.get? "pt", j.get? "tt" with
    | some path, _, _ =>
      let (first, rest) ← pathOfJson s path
      return named s first rest
        (← (← j.arrayField "gs").mapM (Generic.ofJsonWith (ofJsonFrom fuel)))
    | _, some p, _ => return perm s (← Perm.ofJson p) (← ofJsonFrom fuel (← j.field "of"))
    | _, _, some ts => return tuple s (← (← ts.asArray).mapM (ofJsonFrom fuel))
    | _, _, _ => Json.unexpected "a type" j

def Ty.ofJson (j : Json) : Decoded Ty := ofJsonFrom j.depth j

def Generic.ofJson (j : Json) : Decoded Generic := ofJsonWith Ty.ofJson j

def Arm.ofJsonWith (expr : Json → Decoded Expr) (j : Json) : Decoded Arm := do
  let body ← expr (← j.field "b")
  match j.field? "c" with
  | some condition => return .when (← expr condition) body
  | none => return otherwise body

def Block.ofJsonWith (expr : Json → Decoded Expr) (tail : Block) : List Json → Decoded Block
  | [] => return tail
  | j :: statements => do
    let s ← Span.ofNode j
    let rest ← ofJsonWith expr tail statements
    match j.get? "let" with
    | some id =>
      let name : Name := ⟨← id.asString, ← Span.ofField j "ns" s⟩
      let annotation ← Json.optional Ty.ofJson (j.field? "ty")
      match j.field? "init" with
      | some e => return letInit name annotation (← expr e) rest
      | none => return letVar name annotation rest
    | none => return statement s (← expr (← j.field "expr")) rest

def Literal.ofBoolean : Json → Decoded Literal
  | .bool b => return boolean (if b then "true" else "false")
  | text => return boolean (← text.asString)

def Expr.ofJsonFrom : (fuel : Nat) → Json → Decoded Expr
  | 0, j => Json.unexpected "an expression" j
  | fuel + 1, j => do
    let s ← Span.ofNode j
    let has (name : String) : Bool := (j.get? name).isSome
    let expr := ofJsonFrom fuel
    let part (name : String) : Decoded Expr := do expr (← j.field name)
    if has "int" then return literal s (.integer (← j.stringField "int"))
    else if has "str" then return literal s (.string (← j.stringField "str"))
    else if has "bool" then return literal s (← Literal.ofBoolean (← j.field "bool"))
    else if has "tuple" then return tuple s (← (← j.arrayField "tuple").mapM expr)
    else if has "bin" then
      let op ← Json.asNamed "an operator" BinaryOperator.ofSymbol? (← j.field "bin")
      return binary s op (← Span.ofField j "os" s) (← part "l") (← part "r")
    else if has "assign" then return assign s (← part "assign") (← part "value")
    else if has "id" then return Expr.id s (← j.stringField "id")
    else if has "dot" then
      return dot s (← part "dot") ⟨← j.stringField "member", ← Span.ofField j "ms" s⟩
    else if has "index" then
      return bracket s (← part "index") (← (← j.arrayField "args").mapM Generic.ofJson)
    else if has "call" then return call s (← part "call") (← (← j.arrayField "args").mapM expr)
    else if has "return" then
      match j.field? "return" with
      | some e => return returnValue s (← expr e)
      | none => return returnUnit s
    else if has "await" then return await s (← part "await") (← Span.ofField j "as" s)
    else if has "unary" then
      let op ← Json.asNamed "an operator" UnaryOperator.ofName? (← j.field "unary")
      return unary s op (← Span.ofField j "os" s) (← part "e")
    else if has "if" then return cond s (← (← j.arrayField "if").mapM (Arm.ofJsonWith expr))
    else if has "perm" then
      let op ← Json.asNamed "an operation" PermissionOp.ofName? (← j.field "perm")
      return permissionOp s op (← part "e")
    else if has "block" then
      let tail ← match j.field? "tail" with
        | some e => Block.tail <$> expr e
        | none => pure .nil
      return block s (← Block.ofJsonWith expr tail (← j.arrayField "block"))
    else Json.unexpected "an expression" j

def Expr.ofJson (j : Json) : Decoded Expr := ofJsonFrom j.depth j

end Source

end Ownership
