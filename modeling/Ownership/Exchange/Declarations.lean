import Ownership.Checker
import Ownership.Exchange.Terms

namespace Ownership

open Json (Decoded)

structure Declarations where
  nextId : Nat
  nextReport : Nat
  aggregates : List (String × Aggregate)
  functions : List (String × Function)
  program : Program
  whole : Option Program := none

namespace Declarations

abbrev Declare := StateT Declarations Decoded

def freshId : Declare Nat := do
  let d ← get
  set { d with nextId := d.nextId + 1 }
  return d.nextId

def freshReport (s : Span) (message : String) : Declare Report := do
  let d ← get
  set { d with nextReport := d.nextReport + 1 }
  return ⟨d.nextReport, s, message⟩

def variableOf (j : Json) : Declare Variable := do
  let parts ← j.asArray
  let name ← (← Json.nth parts 0).asString
  let kind ← Kind.ofJson (← Json.nth parts 1)
  let s ← Span.ofJson parts[2]?
  return ⟨← freshId, kind, some name, s⟩

def declareVariables (js : List Json) : Declare (List Variable) := js.mapM variableOf

def named (vs : List Variable) : List (String × Variable) :=
  vs.filterMap fun v => v.name.map fun name => (name, v)

def extend (known : List (String × Variable)) (vs : List Variable) : List (String × Variable) :=
  (named vs).reverse ++ known

def names (vars : List (String × Variable)) : Declare Names := do
  let d ← get
  return ⟨d.aggregates, d.program, vars⟩

inductive Item where
  | aggregate (a : Aggregate) (j : Json) (path : String)
  | module (name : String) (s : Span) (items : List Item)
  | function (j : Json) (path : String)
  | primitive (name : String) (p : Primitive)

def joinPath (path name : String) : String := if path.isEmpty then name else path ++ "." ++ name

def declareAggregate (path : String) (style : AggregateStyle) (name : Json) (j : Json) :
    Declare Item := do
  let generics ← declareVariables (← j.arrayField "generics")
  let a : Aggregate := ⟨← freshId, ← name.asString, style, generics, ← Span.ofNode j⟩
  let full := joinPath path a.name
  modify fun d => { d with aggregates := (full, a) :: d.aggregates }
  return .aggregate a j full

def declareFrom : (fuel : Nat) → (path : String) → Json → Declare Item
  | 0, _, j => Json.unexpected "an item" j
  | fuel + 1, path, j => do
    match j.get? "class", j.get? "struct", j.get? "module", j.get? "primitive" with
    | some name, _, _, _ => declareAggregate path .classDecl name j
    | _, some name, _, _ => declareAggregate path .structDecl name j
    | _, _, some name, _ =>
      let name ← name.asString
      let items ← (← j.arrayField "items").mapM (declareFrom fuel (joinPath path name))
      return .module name (← Span.ofNode j) items
    | _, _, _, some name =>
      let p ← Json.asNamed "a primitive" Primitive.ofName? (← j.field "as")
      return .primitive (← name.asString) p
    | _, _, _, _ => return .function j path

def inputVariable (j : Json) : Declare Variable := do
  let parts ← j.asArray
  let name ← match ← Json.nth parts 0 with
    | .null => pure none
    | name => some <$> (name.asString : Decoded _)
  return ⟨← freshId, .place, name, ← Span.ofJson parts[2]?⟩

def inputTy (names : Names) (j : Json) : Decoded Ty := do
  Ty.ofJson names (← Json.nth (← j.asArray) 1)

def inputOutput (names : Names) (j : Json) : Decoded InputOutput := do
  let inputTys ← (← j.arrayField "inputs").mapM (inputTy names)
  let output ← Json.optional (Ty.ofJson names) (j.field? "output")
  let clauses ← (← j.arrayField "where").mapM (WhereClause.ofJson names)
  return ⟨inputTys, output.getD .unit, clauses⟩

def signature (outer : List Variable) (j : Json) : Declare Signature := do
  let generics ← declareVariables (← j.arrayField "generics")
  let inputs ← (← j.arrayField "inputs").mapM inputVariable
  let names ← names (extend (extend (extend [] outer) generics) inputs)
  let binder := match j.get? "outer" with
    | some (.bool false) => generics
    | _ => outer ++ generics
  let own ← Json.optional names.varsOf (j.field? "own")
  let types ← match j.get? "lazy", (← get).whole with
    | some (.bool true), some program => (inputOutput { names with program } j : Decoded _)
    | some (.bool true), none => pure ⟨[], .unit, []⟩
    | _, _ => (inputOutput names j : Decoded _)
  return ⟨binder, own.getD generics, inputs, types⟩

def function (path : String) (outer : List Variable) (j : Json) : Declare Function := do
  let name ← j.stringField "fn"
  let nameSpan ← Span.ofNode j
  let hasSelf ← Json.optional Json.asBool (j.field? "self")
  let id ← freshId
  let signature : Except Failure Signature ← match j.field? "bad", j.field? "throws" with
    | some m, _ => do pure (.error (.reported (← freshReport nameSpan (← m.asString))))
    | _, some m => pure (.error (.violated (.stated (← m.asString))))
    | _, _ => .ok <$> signature outer j
  let f : Function := { id, name, span := nameSpan, hasSelf := hasSelf.getD false, signature }
  modify fun d => { d with functions := (joinPath path name, f) :: d.functions }
  return f

def declareMember (a : Aggregate) (path : String) (j : Json) : Declare Unit := do
  match j.get? "field" with
  | some name =>
    let f : Field := ⟨← freshId, ← name.asString, a, ← Span.ofNode j⟩
    let t ← Ty.ofJson (← names (extend [] a.generics)) (← j.field "ty")
    modify fun d => { d with program := d.program.addField f t }
  | none =>
    let f ← function path a.generics j
    modify fun d => { d with program := d.program.addFunction a f }

structure Entry where
  isFunction : Bool
  name : String
  entity : Entity

def table (entries : List Entry) : List (String × Entity) :=
  let ordered := entries.filter (fun e => !e.isFunction) ++ entries.filter (·.isFunction)
  ordered.foldl (fun table e => putEntry e.name e.entity table) []

mutual
def fill : Item → Declare Entry
  | .aggregate a j path => do
    (← j.arrayField "members").forM (declareMember a path)
    return ⟨false, a.name, .aggregate a⟩
  | .module name s items => do
    let entries ← fillAll items
    return ⟨false, name, .module name s (table entries)⟩
  | .function j path => do
    let f ← function path [] j
    return ⟨true, f.name, .function f⟩
  | .primitive name p => return ⟨false, name, .primitive p⟩

def fillAll : List Item → Declare (List Entry)
  | [] => return []
  | item :: items => do
    let entry ← fill item
    let entries ← fillAll items
    return entry :: entries
end

def firstReport : Nat := 1000000

def ofPrelude : Declarations where
  nextId := Prelude.firstFreeId
  nextReport := firstReport
  aggregates := [("Pointer", Prelude.pointer), ("String", Prelude.string)]
  functions := [("String.literal", Prelude.literal)]
  program := Prelude.program

end Declarations

structure Setting where
  world : World
  aggregates : List (String × Aggregate)
  functions : List (String × Function)

namespace Setting

def names (s : Setting) (vars : List (String × Variable)) : Names :=
  ⟨s.aggregates, s.world.program, vars⟩

def function (s : Setting) (path : String) : Decoded Function :=
  match s.functions.lookup path with
  | some f => .ok f
  | none => Json.malformed ("no function " ++ path)

def config (j : Json) : Decoded Config := do
  let defaults : Config := {}
  let trace ← Json.optional Json.asBool (j.field? "trace")
  let integer ← Json.optional (Json.asNamed "a primitive" Primitive.ofName?)
    (j.field? "defaultIntegerType")
  let uri ← Json.optional Json.asString (j.field? "documentUri")
  let rounds ← Json.optional Json.asDecimal (j.field? "maxSettleRounds")
  return ⟨trace.getD defaults.trace, integer.getD defaults.defaultIntegerType,
    uri.getD defaults.documentUri, rounds.getD defaults.maxSettleRounds⟩

def ofJson (world : Json) (vars : List Json) : Decoded (Setting × List Variable) := do
  let config ← config ((world.field? "config").getD (.object []))
  let declare : Declarations.Declare (List (String × Entity) × List Variable) := do
    let items ← (← world.arrayField "items").mapM (Declarations.declareFrom world.depth "")
    let entries ← Declarations.fillAll items
    let vs ← Declarations.declareVariables vars
    return (Declarations.table entries, vs)
  let (_, first) ← declare.run Declarations.ofPrelude
  let ((entries, vs), d) ← declare.run { Declarations.ofPrelude with whole := some first.program }
  return (⟨⟨config, d.program, .ofModules [Prelude.items, entries], d.nextId, d.nextReport⟩,
    d.aggregates, d.functions⟩, vs)

end Setting

end Ownership
