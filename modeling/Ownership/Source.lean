import Ownership.Span

namespace Ownership

structure Name where
  id : String
  span : Span

inductive Operator where
  | add
  | sub
  | mul
  | div
  | greaterThan
  | lessThan
  | greaterEqual
  | lessEqual
  | equalEqual
deriving DecidableEq

namespace Operator

def name : Operator → String
  | add => "add"
  | sub => "sub"
  | mul => "mul"
  | div => "div"
  | greaterThan => "greaterThan"
  | lessThan => "lessThan"
  | greaterEqual => "greaterEqual"
  | lessEqual => "lessEqual"
  | equalEqual => "equalEqual"

def symbol : Operator → String
  | add => "+"
  | sub => "-"
  | mul => "*"
  | div => "/"
  | greaterThan => ">"
  | lessThan => "<"
  | greaterEqual => ">="
  | lessEqual => "<="
  | equalEqual => "=="

def all : List Operator :=
  [add, sub, mul, div, greaterThan, lessThan, greaterEqual, lessEqual, equalEqual]

def ofSymbol? (s : String) : Option Operator :=
  all.find? fun op => op.symbol == s

def isArithmetic : Operator → Bool
  | add | sub | mul | div => true
  | _ => false

end Operator

inductive UnaryOperator where
  | not
  | negate
deriving DecidableEq

def UnaryOperator.ofName? : String → Option UnaryOperator
  | "not" => some .not
  | "negate" => some .negate
  | _ => none

inductive PermissionOp where
  | give
  | mutate
  | reference
deriving DecidableEq

def PermissionOp.name : PermissionOp → String
  | .give => "give"
  | .mutate => "mutate"
  | .reference => "reference"

def PermissionOp.ofName? (s : String) : Option PermissionOp :=
  [PermissionOp.give, .mutate, .reference].find? fun op => op.name == s

namespace Source

structure Place where
  root : Name
  fields : List Name

inductive Perm where
  | my (span : Span)
  | our (span : Span)
  | shared (span : Span) (places : List Place)
  | leased (span : Span) (places : List Place)
  | named (span : Span) (name : Option Name)

def Perm.span : Perm → Span
  | my span => span
  | our span => span
  | shared span _ => span
  | leased span _ => span
  | named span _ => span

mutual
inductive Ty where
  | named (span : Span) (first : Name) (rest : List Name) (generics : List Generic)
  | perm (span : Span) (p : Perm) (t : Ty)
  | tuple (span : Span) (elements : List Ty)

inductive Generic where
  | ty (t : Ty)
  | perm (p : Perm)
end

def Ty.span : Ty → Span
  | named span .. => span
  | perm span .. => span
  | tuple span _ => span

def Generic.span : Generic → Span
  | ty t => t.span
  | perm p => p.span

inductive Literal where
  | integer (text : String)
  | string (text : String)
  | boolean (text : String)

inductive BinaryOperator where
  | operator (op : Operator)
  | and
  | or

def BinaryOperator.ofSymbol? : String → Option BinaryOperator
  | "&&" => some .and
  | "||" => some .or
  | s => (Operator.ofSymbol? s).map .operator

mutual
inductive Expr where
  | literal (span : Span) (l : Literal)
  | tuple (span : Span) (elements : List Expr)
  | binary (span : Span) (op : BinaryOperator) (opSpan : Span) (left right : Expr)
  | assign (span : Span) (place value : Expr)
  | id (span : Span) (name : String)
  | dot (span : Span) (owner : Expr) (member : Name)
  | bracket (span : Span) (owner : Expr) (args : List Generic)
  | call (span : Span) (owner : Expr) (args : List Expr)
  | returnUnit (span : Span)
  | returnValue (span : Span) (value : Expr)
  | await (span : Span) (future : Expr) (awaitSpan : Span)
  | unary (span : Span) (op : UnaryOperator) (opSpan : Span) (operand : Expr)
  | cond (span : Span) (arms : List Arm)
  | permissionOp (span : Span) (op : PermissionOp) (value : Expr)
  | block (span : Span) (b : Block)

inductive Arm where
  | when (condition body : Expr)
  | otherwise (body : Expr)

inductive Block where
  | nil
  | tail (value : Expr)
  | letVar (name : Name) (ty : Option Ty) (rest : Block)
  | letInit (name : Name) (ty : Option Ty) (initializer : Expr) (rest : Block)
  | statement (span : Span) (expr : Expr) (rest : Block)
end

namespace Expr

def span : Expr → Span
  | literal span _ => span
  | tuple span _ => span
  | binary span .. => span
  | assign span .. => span
  | id span _ => span
  | dot span .. => span
  | bracket span .. => span
  | call span .. => span
  | returnUnit span => span
  | returnValue span _ => span
  | await span .. => span
  | unary span .. => span
  | cond span _ => span
  | permissionOp span .. => span
  | block span _ => span

def form : Expr → String
  | literal .. => "Literal"
  | tuple .. => "TupleExpr"
  | binary .. => "BinaryExpr"
  | assign .. => "AssignExpr"
  | id .. => "IdExpr"
  | dot .. => "DotIdExpr"
  | bracket .. => "SquareBracketExpr"
  | call .. => "CallExpr"
  | returnUnit .. => "ReturnExpr"
  | returnValue .. => "ReturnExpr"
  | await .. => "AwaitExpr"
  | unary .. => "UnaryExpr"
  | cond .. => "IfExpr"
  | permissionOp .. => "PermissionOpExpr"
  | block .. => "BlockExpr"

end Expr

end Source

end Ownership
