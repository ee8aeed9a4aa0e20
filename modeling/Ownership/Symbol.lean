import Ownership.Span

namespace Ownership

inductive Kind where
  | type
  | perm
  | place
deriving DecidableEq

def Kind.name : Kind → String
  | .type => "type"
  | .perm => "perm"
  | .place => "place"

def Kind.ofName? (s : String) : Option Kind :=
  [Kind.type, .perm, .place].find? fun k => k.name == s

structure Variable where
  id : Nat
  kind : Kind
  name : Option String
  span : Span
deriving DecidableEq

def Variable.render (v : Variable) : String :=
  match v.name with
  | some name => name
  | none => s!"^{v.kind.name}{v.id}"

inductive Primitive where
  | bool
  | char
  | u8
  | u16
  | u32
  | u64
  | usize
  | i8
  | i16
  | i32
  | i64
  | isize
  | f32
  | f64
deriving DecidableEq

namespace Primitive

def name : Primitive → String
  | bool => "bool"
  | char => "char"
  | u8 => "u8"
  | u16 => "u16"
  | u32 => "u32"
  | u64 => "u64"
  | usize => "usize"
  | i8 => "i8"
  | i16 => "i16"
  | i32 => "i32"
  | i64 => "i64"
  | isize => "isize"
  | f32 => "f32"
  | f64 => "f64"

def integers : List Primitive :=
  [u8, u16, u32, u64, usize, i8, i16, i32, i64, isize]

def all : List Primitive :=
  [bool, char] ++ integers ++ [f32, f64]

def ofName? (s : String) : Option Primitive :=
  all.find? fun p => p.name == s

def isInteger (p : Primitive) : Bool :=
  integers.contains p

def isNumeric (p : Primitive) : Bool :=
  p.isInteger || p == f32 || p == f64

end Primitive

inductive AggregateStyle where
  | classDecl
  | structDecl
deriving DecidableEq

def AggregateStyle.name : AggregateStyle → String
  | .classDecl => "class"
  | .structDecl => "struct"

structure Aggregate where
  id : Nat
  name : String
  style : AggregateStyle
  generics : List Variable
  span : Span
deriving DecidableEq

def Aggregate.isClass (a : Aggregate) : Bool :=
  a.style = .classDecl

structure Field where
  id : Nat
  name : String
  owner : Aggregate
  span : Span
deriving DecidableEq

end Ownership
