import Ownership.Signature

namespace Ownership

inductive Member where
  | field (f : Field)
  | function (f : Function)

def Member.name : Member → String
  | .field f => f.name
  | .function f => f.name

inductive Entity where
  | var (v : Variable)
  | function (f : Function)
  | module (name : String) (span : Span) (items : List (String × Entity))
  | aggregate (a : Aggregate)
  | field (f : Field)
  | primitive (p : Primitive)

def putEntry {α : Type} (key : String) (value : α) : List (String × α) → List (String × α)
  | [] => [(key, value)]
  | entry :: rest =>
    if entry.1 = key then (key, value) :: rest else entry :: putEntry key value rest

structure Program where
  members : List (Aggregate × List (String × Member))
  fieldTys : List (Field × Ty)

namespace Program

def empty : Program := ⟨[], []⟩

def membersOf (p : Program) (a : Aggregate) : List (String × Member) :=
  match p.members.find? fun entry => entry.1 = a with
  | some entry => entry.2
  | none => []

def member (p : Program) (a : Aggregate) (name : String) : Option Member :=
  (p.membersOf a).lookup name

def fields (p : Program) (a : Aggregate) : List Field :=
  (p.membersOf a).filterMap fun
    | (_, .field f) => some f
    | _ => none

def fieldTy (p : Program) (f : Field) : Option Ty :=
  (p.fieldTys.find? fun entry => entry.1 = f).map (·.2)

def addMember (p : Program) (a : Aggregate) (m : Member) : Program :=
  let members := putEntry m.name m (p.membersOf a)
  { p with members := (a, members) :: p.members.filter fun entry => entry.1 ≠ a }

def addField (p : Program) (f : Field) (ty : Ty) : Program :=
  let p := p.addMember f.owner (.field f)
  { p with fieldTys := (f, ty) :: p.fieldTys }

def addFunction (p : Program) (a : Aggregate) (f : Function) : Program :=
  p.addMember a (.function f)

end Program

end Ownership
