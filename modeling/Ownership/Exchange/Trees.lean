import Ownership.Exchange.Terms
import Ownership.Finding

namespace Ownership

namespace Core

def hexBytes (text : String) : String :=
  String.ofList (text.toUTF8.toList.flatMap fun b =>
    [Json.hexDigit (b.toNat / 16), Json.hexDigit b.toNat])

def nodeJson (form : String) (ty : Ty) (span : Span) (parts : List Json) : Json :=
  .array ([.string form, .string ty.render, span.toJson] ++ parts)

def PlaceExpr.toJson : PlaceExpr → Json
  | var span ty v => nodeJson "Var" ty span [.string v.render]
  | field span ty owner f => nodeJson "Field" ty span [owner.toJson, .string f.name]
  | error r => nodeJson "Error" (.error r) r.span [.string r.message]

mutual
def Expr.toJson : Expr → Json
  | .mk span ty node =>
    let (form, parts) := node.toJson
    nodeJson form ty span parts

def Node.toJson : Node → String × List Json
  | .semi first rest => ("Semi", [first.toJson, rest.toJson])
  | .tuple elements => ("Tuple", [.array (exprsJson elements)])
  | .integral bits => ("Primitive", [.string (toString bits)])
  | .bytes text => ("ByteLiteral", [.string (hexBytes text)])
  | .declare v ty body => ("LetIn", [.string v.render, .string ty.render, .null, body.toJson])
  | .letIn v ty initializer body =>
    ("LetIn", [.string v.render, .string ty.render, initializer.toJson, body.toJson])
  | .await future awaitSpan => ("Await", [future.toJson, awaitSpan.toJson])
  | .assign place value => ("Assign", [place.toJson, value.toJson])
  | .permissionOp op place => ("PermissionOp", [.string op.name, place.toJson])
  | .call f substitution args =>
    ("Call", [.string f.name, Term.toJsonAll substitution, .ofStrings (args.map Variable.render)])
  | .ret value => ("Return", [value.toJson])
  | .not operand opSpan => ("Not", [operand.toJson, opSpan.toJson])
  | .negate operand opSpan => ("Negate", [operand.toJson, opSpan.toJson])
  | .binary op left right => ("BinaryOp", [.string op.name, left.toJson, right.toJson])
  | .cond arms => ("Match", [.array (armsJson arms)])
  | .error r => ("Error", [.string r.message])

def Arm.toJson : Arm → Json
  | .when condition body => .array [condition.toJson, body.toJson]
  | .otherwise body => .array [.null, body.toJson]

def exprsJson : List Expr → List Json
  | [] => []
  | e :: es => e.toJson :: exprsJson es

def armsJson : List Arm → List Json
  | [] => []
  | arm :: arms => arm.toJson :: armsJson arms
end

end Core

def Temporary.toJson (t : Core.Temporary) : Json :=
  Json.ofStrings [t.var.render, t.ty.render]

namespace Found

def toJson : Found → String × Json
  | place p => ("PlaceExpr", p.toJson)
  | value e => ("Expr", e.toJson)
  | name r => ("Other", .array [.string r.describe, Term.toJsonAll r.generics])
  | method self idSpan f generics =>
    ("Method", .array [self.toJson, idSpan.toJson, .string f.name,
      Json.ofOption (fun gs => .ofNat gs.length) generics])

end Found

def Finding.toJson (f : Finding) : Json :=
  let (form, what) := f.found.toJson
  .object
    [("kind", .string form), ("at", f.span.toJson),
      ("temporaries", .array (f.temporaries.map Temporary.toJson)), ("what", what)]

end Ownership
