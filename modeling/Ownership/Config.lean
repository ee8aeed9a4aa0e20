import Ownership.Json.Reading
import Ownership.Symbol

namespace Ownership

structure Config where
  trace : Bool := false
  defaultIntegerType : Primitive := .i32
  documentUri : String := "memory://main.perm"
  maxSettleRounds : Decimal := .ofNat 10000

inductive ConfigProblem where
  | notAnObject
  | trace
  | defaultIntegerType
  | documentUri
  | maxSettleRounds
  | invalidJson

def ConfigProblem.message : ConfigProblem → String
  | notAnObject => "expected a JSON object"
  | trace => "`trace` must be a boolean"
  | defaultIntegerType =>
    "`defaultIntegerType` must be one of "
      ++ ", ".intercalate (Primitive.integers.map Primitive.name)
  | documentUri => "`documentUri` must be a string"
  | maxSettleRounds => "`maxSettleRounds` must be a positive integer"
  | invalidJson => "invalid JSON"

structure ConfigError where
  file : String
  problem : ConfigProblem

def ConfigError.message (e : ConfigError) : String :=
  e.file ++ ": " ++ e.problem.message

namespace Config

def fileName : String := "perm.json"

def field {α : Type} (members : Json) (name : String) (default : α) (problem : ConfigProblem)
    (read : Json → Option α) : Except ConfigProblem α :=
  match members.get? name with
  | none => .ok default
  | some v =>
    match read v with
    | some a => .ok a
    | none => .error problem

def readBool : Json → Option Bool
  | .bool b => some b
  | _ => none

def readString : Json → Option String
  | .string s => some s
  | _ => none

def readIntegerType : Json → Option Primitive
  | .string s => Primitive.integers.find? fun p => p.name == s
  | _ => none

def readRounds : Json → Option Decimal
  | .number d => d.toPositive?.map .ofNat
  | _ => none

def ofJson (value : Json) : Except ConfigProblem Config :=
  match value with
  | .object _ => do
    let defaults : Config := {}
    let trace ← field value "trace" defaults.trace .trace readBool
    let defaultIntegerType ← field value "defaultIntegerType" defaults.defaultIntegerType
      .defaultIntegerType readIntegerType
    let documentUri ← field value "documentUri" defaults.documentUri .documentUri readString
    let maxSettleRounds ← field value "maxSettleRounds" defaults.maxSettleRounds
      .maxSettleRounds readRounds
    return { trace, defaultIntegerType, documentUri, maxSettleRounds }
  | _ => .error .notAnObject

def parse (file : String) (value : Json) : Except ConfigError Config :=
  (ofJson value).mapError fun problem => ⟨file, problem⟩

end Config

inductive ConfigFile where
  | missing
  | unreadable
  | text (content : String)

inductive ConfigFailure where
  | unreadable
  | invalid (e : ConfigError)

def ConfigFile.load : ConfigFile → Except ConfigFailure Config
  | missing => .ok {}
  | unreadable => .error .unreadable
  | text content =>
    match Json.parse? content with
    | none => .error (.invalid ⟨Config.fileName, .invalidJson⟩)
    | some value => (Config.parse Config.fileName value).mapError .invalid

end Ownership
