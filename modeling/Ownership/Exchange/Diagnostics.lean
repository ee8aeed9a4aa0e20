import Ownership.Diagnostic.Editor
import Ownership.Json.Access
import Ownership.Numbering
import Ownership.Predicate
import Ownership.Prelude
import Ownership.Text.Units

namespace Ownership

open Json (Decoded)

namespace Span

/-- A line alone is its first character; three numbers are a line and two characters; four are two
positions. -/
def ofJson : Option Json → Decoded Span
  | none => .ok ⟨⟨0, 0⟩, ⟨0, 0⟩⟩
  | some .null => .ok ⟨⟨0, 0⟩, ⟨0, 0⟩⟩
  | some (.array [l, a, b]) => do
    let line ← l.asNat
    return ⟨⟨line, ← a.asNat⟩, ⟨line, ← b.asNat⟩⟩
  | some (.array [l, a, m, b]) => do
    return ⟨⟨← l.asNat, ← a.asNat⟩, ⟨← m.asNat, ← b.asNat⟩⟩
  | some j => do
    let line ← j.asNat
    return ⟨⟨line, 0⟩, ⟨line, 1⟩⟩

def ofNode (j : Json) : Decoded Span := ofJson (j.get? "s")

def ofField (j : Json) (name : String) (default : Span) : Decoded Span :=
  match j.get? name with
  | some s => ofJson (some s)
  | none => .ok default

def text (s : Span) : String :=
  if s = Prelude.span then "prelude"
  else s!"{s.start.line}:{s.start.character}-{s.stop.line}:{s.stop.character}"

def toJson (s : Span) : Json := .string s.text

end Span

def Kind.ofJson : Json → Decoded Kind := Json.asNamed "a kind" Kind.ofName?

def Predicate.ofJson : Json → Decoded Predicate := Json.asNamed "a predicate" Predicate.ofName?

def Level.ofJson : Json → Decoded Level := Json.asNamed "a level" Level.ofName?

def Code.ofJson : Json → Decoded Code := Json.asNamed "a code" Code.ofText?

def Code.toJson (c : Code) : Json := .string c.text

namespace Label

def ofJson (j : Json) : Decoded Label := do
  let parts ← j.asArray
  return ⟨← Level.ofJson (← Json.nth parts 0), ← Span.ofJson parts[1]?,
    ← (← Json.nth parts 2).asString⟩

def toJson (l : Label) : Json :=
  .array [.string l.level.name, l.span.toJson, .string l.message]

def text (l : Label) : String :=
  l.level.name ++ " " ++ l.span.text ++ " " ++ l.message

end Label

namespace Diagnostic

mutual
def toJson : Diagnostic → Json
  | ⟨level, span, message, code, labels, children, because⟩ =>
    .object
      [("level", .string level.name), ("code", Json.ofOption Code.toJson code),
        ("at", span.toJson), ("message", .string message),
        ("labels", .array (labels.map Label.toJson)), ("because", Json.ofStrings because),
        ("children", .array (toJsonAll children))]

def toJsonAll : List Diagnostic → List Json
  | [] => []
  | d :: ds => d.toJson :: toJsonAll ds
end

def ofJsonFrom : (fuel : Nat) → Json → Decoded Diagnostic
  | 0, j => Json.unexpected "a diagnostic" j
  | fuel + 1, j => do
    let s ← Span.ofNode j
    let message ← j.stringField "message"
    let code ← Json.optional Code.ofJson (j.field? "code")
    let made : Diagnostic ← match ← Level.ofJson (← j.field "make") with
      | .error => pure (error s message code)
      | .note => pure (note s message)
      | level => pure { level, span := s, message, code }
    let labels ← (← j.arrayField "labels").mapM Label.ofJson
    let notes ← (← j.arrayField "because").mapM Json.asString
    let children ← (← j.arrayField "children").mapM (ofJsonFrom fuel)
    let labelled := labels.foldl (fun d l => d.label l.level l.span l.message) made
    return children.foldl child (labelled.becauseOf notes)

def ofJson (j : Json) : Decoded Diagnostic := ofJsonFrom j.depth j

def sortKeys (d : Diagnostic) : List (List Nat) :=
  let code := match d.code with
    | some c => c.text
    | none => ""
  let masked (s : String) : List Nat := Text.units (Numbering.mask s)
  [[d.span.start.line, d.span.start.character, d.span.stop.line, d.span.stop.character],
    Text.units code, masked d.message, masked ("\n".intercalate d.because),
    masked ("\n".intercalate (d.labels.map Label.text))]

def sorted (ds : List Diagnostic) : List Diagnostic := Text.sortByKeys sortKeys ds

end Diagnostic

def EditorDiagnostic.toJson (d : EditorDiagnostic) : Json :=
  let related := if d.related.isEmpty then Json.null
    else .array (d.related.map fun r => .array [.string r.uri, r.span.toJson, .string r.message])
  .object
    [("at", d.span.toJson), ("severity", .ofNat d.severity),
      ("code", Json.ofOption Code.toJson d.code), ("source", .string d.source),
      ("message", .string d.message), ("related", related)]

end Ownership
