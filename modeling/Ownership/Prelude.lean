import Ownership.Program

namespace Ownership

namespace Prelude

def span : Span :=
  ⟨⟨1000000000, 0⟩, ⟨1000000000, 1⟩⟩

def firstFreeId : Nat := 8

def pointee : Variable := ⟨1, .type, some "T", span⟩

def pointer : Aggregate := ⟨2, "Pointer", .structDecl, [pointee], span⟩

def string : Aggregate := ⟨3, "String", .classDecl, [], span⟩

def pointerTy (element : Ty) : Ty := .aggregate pointer [.ty element]

def stringTy : Ty := .aggregate string []

def literalData : Variable := ⟨4, .place, some "data", span⟩

def literalLength : Variable := ⟨5, .place, some "length", span⟩

def literalSignature : Signature where
  generics := []
  ownGenerics := []
  inputs := [literalData, literalLength]
  types :=
    { inputTys := [pointerTy (.primitive .u8), .primitive .u32]
      outputTy := stringTy
      whereClauses := [] }

def literal : Function where
  id := 6
  name := "literal"
  span := span
  hasSelf := false
  signature := .ok literalSignature

def items : List (String × Entity) :=
  [(pointer.name, .aggregate pointer), (string.name, .aggregate string)]

def program : Program :=
  Program.empty.addFunction string literal

end Prelude

end Ownership
