import Ownership.Signature
import Ownership.Source
import Ownership.Term.Equality

namespace Ownership

namespace Core

inductive PlaceExpr where
  | var (span : Span) (ty : Ty) (v : Variable)
  | field (span : Span) (ty : Ty) (owner : PlaceExpr) (f : Field)
  | error (r : Report)

namespace PlaceExpr

def span : PlaceExpr → Span
  | var span .. => span
  | field span .. => span
  | error r => r.span

def ty : PlaceExpr → Ty
  | var _ ty _ => ty
  | field _ ty _ _ => ty
  | error r => .error r

def toPlace : PlaceExpr → Place
  | var _ _ v => .var v
  | field _ _ owner f => .field owner.toPlace f
  | error r => .error r

def render : PlaceExpr → String
  | var _ _ v => v.render
  | field _ _ owner f => owner.render ++ "." ++ f.name
  | error _ => "<error>"

end PlaceExpr

mutual
inductive Expr where
  | mk (span : Span) (ty : Ty) (node : Node)

inductive Node where
  | semi (first rest : Expr)
  | tuple (elements : List Expr)
  | integral (bits : Nat)
  | bytes (text : String)
  | declare (v : Variable) (ty : Ty) (body : Expr)
  | letIn (v : Variable) (ty : Ty) (initializer body : Expr)
  | await (future : Expr) (awaitSpan : Span)
  | assign (place : PlaceExpr) (value : Expr)
  | permissionOp (op : PermissionOp) (place : PlaceExpr)
  | call (f : Function) (substitution : List Term) (args : List Variable)
  | ret (value : Expr)
  | not (operand : Expr) (opSpan : Span)
  | negate (operand : Expr) (opSpan : Span)
  | binary (op : Operator) (left right : Expr)
  | cond (arms : List Arm)
  | error (r : Report)

inductive Arm where
  | when (condition body : Expr)
  | otherwise (body : Expr)
end

namespace Expr

def span : Expr → Span
  | mk span _ _ => span

def ty : Expr → Ty
  | mk _ ty _ => ty

def node : Expr → Node
  | mk _ _ node => node

def error (r : Report) : Expr := mk r.span (.error r) (.error r)

def boolean (span : Span) (value : Bool) : Expr :=
  mk span .bool (.integral (if value then 1 else 0))

def unit (span : Span) : Expr := mk span .unit (.tuple [])

def ifThenElse (span : Span) (condition yes no : Expr) : Expr :=
  mk span yes.ty (.cond [.when condition yes, .otherwise no])

def letIn (v : Variable) (ty : Ty) (initializer body : Expr) : Expr :=
  mk body.span body.ty (.letIn v ty initializer body)

def declare (v : Variable) (ty : Ty) (body : Expr) : Expr :=
  mk body.span body.ty (.declare v ty body)

end Expr

namespace Arm

def body : Arm → Expr
  | when _ body => body
  | otherwise body => body

def isOtherwise : Arm → Bool
  | when _ _ => false
  | otherwise _ => true

end Arm

/-- The text that the bytes of a text decode to: a leading byte order mark is dropped. -/
def decodedText (text : String) : String :=
  match text.toList with
  | '\ufeff' :: rest => String.ofList rest
  | _ => text

mutual
def Expr.render : Expr → String
  | .mk _ ty node => node.render (decide (ty = .bool))

def Node.render (isBool : Bool) : Node → String
  | .semi first rest => first.render ++ "; " ++ rest.render
  | .tuple elements => "(" ++ ", ".intercalate (Expr.renderAll elements) ++ ")"
  | .integral bits => if isBool then (if bits = 1 then "true" else "false") else toString bits
  | .bytes text => "b\"" ++ decodedText text ++ "\""
  | .declare v ty body => "let " ++ v.render ++ ": " ++ ty.render ++ " in " ++ body.render
  | .letIn v ty initializer body =>
    "let " ++ v.render ++ ": " ++ ty.render ++ " = " ++ initializer.render ++ " in "
      ++ body.render
  | .await future _ => future.render ++ ".await"
  | .assign place value => place.render ++ " = " ++ value.render
  | .permissionOp op place => place.render ++ "." ++ op.name
  | .call f _ args => f.name ++ "(" ++ ", ".intercalate (args.map Variable.render) ++ ")"
  | .ret value => "return " ++ value.render
  | .not operand _ => "!" ++ operand.render
  | .negate operand _ => "-" ++ operand.render
  | .binary op left right =>
    "(" ++ left.render ++ " " ++ op.name ++ " " ++ right.render ++ ")"
  | .cond arms => " else ".intercalate (Arm.renderAll arms)
  | .error _ => "<error>"

def Arm.render : Arm → String
  | .when condition body => "if " ++ condition.render ++ " \x7b " ++ body.render ++ " \x7d"
  | .otherwise body => "\x7b " ++ body.render ++ " \x7d"

def Expr.renderAll : List Expr → List String
  | [] => []
  | e :: es => e.render :: Expr.renderAll es

def Arm.renderAll : List Arm → List String
  | [] => []
  | a :: as => a.render :: Arm.renderAll as
end

structure Temporary where
  var : Variable
  initializer : Expr

def Temporary.ty (t : Temporary) : Ty := t.initializer.ty

def Expr.enclose (body : Expr) (temporaries : List Temporary) : Expr :=
  temporaries.foldr (fun t e => .letIn t.var t.ty t.initializer e) body

end Core

end Ownership
