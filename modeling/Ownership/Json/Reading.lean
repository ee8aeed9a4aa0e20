import Ownership.Json.Token

namespace Ownership.Json

inductive Frame where
  | array (elements : List Json)
  | object (members : List (String × Json)) (name : String)

inductive Expectation where
  | value
  | firstElement
  | firstMember
  | member (members : List (String × Json))
  | colon (members : List (String × Json)) (name : String)
  | after (v : Json)

structure Reader where
  expectation : Expectation
  frames : List Frame

namespace Reader

def start : Reader := ⟨.value, []⟩

def startValue (frames : List Frame) : Token → Option Reader
  | .literal v => some ⟨.after v, frames⟩
  | .openBracket => some ⟨.firstElement, frames⟩
  | .openBrace => some ⟨.firstMember, frames⟩
  | _ => none

def step (r : Reader) (token : Token) : Option Reader :=
  match r.expectation, token with
  | .value, token => startValue r.frames token
  | .firstElement, .closeBracket => some ⟨.after (.array []), r.frames⟩
  | .firstElement, token => startValue (.array [] :: r.frames) token
  | .firstMember, .closeBrace => some ⟨.after (.object []), r.frames⟩
  | .firstMember, .literal (.string name) => some ⟨.colon [] name, r.frames⟩
  | .member members, .literal (.string name) => some ⟨.colon members name, r.frames⟩
  | .colon members name, .colon => some ⟨.value, .object members name :: r.frames⟩
  | .after v, token =>
    match r.frames, token with
    | .array elements :: frames, .comma => some ⟨.value, .array (v :: elements) :: frames⟩
    | .array elements :: frames, .closeBracket =>
      some ⟨.after (.array (v :: elements).reverse), frames⟩
    | .object members name :: frames, .comma => some ⟨.member ((name, v) :: members), frames⟩
    | .object members name :: frames, .closeBrace =>
      some ⟨.after (.object ((name, v) :: members).reverse), frames⟩
    | _, _ => none
  | _, _ => none

end Reader

def parse? (text : String) : Option Json := do
  let tokens ← Token.scan text
  let reader ← tokens.foldlM Reader.step Reader.start
  match reader with
  | ⟨.after v, []⟩ => some v
  | _ => none

end Ownership.Json
