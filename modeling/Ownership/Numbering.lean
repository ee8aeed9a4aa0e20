import Ownership.Json

namespace Ownership

def unnamedWords : List String := ["^place", "^type", "^perm"]

def inferWords : List String := ["?T", "?P", "?L"]

namespace Numbering

inductive Piece where
  | char (c : Char)
  | unnamed (word : String) (digits : List Char)
  | infer (word : String) (digits : List Char)

def wordAt (words : List String) (cs : List Char) : Option (String × List Char) :=
  words.findSome? fun word =>
    if word.toList.isPrefixOf cs then
      match (cs.drop word.length).takeWhile Char.isDigit with
      | [] => none
      | digits => some (word, digits)
    else none

def piecesFrom : (skip : Nat) → List Char → List Piece
  | _, [] => []
  | skip + 1, _ :: cs => piecesFrom skip cs
  | 0, c :: cs =>
    match wordAt unnamedWords (c :: cs), wordAt inferWords (c :: cs) with
    | some (word, digits), _ =>
      .unnamed word digits :: piecesFrom (word.length + digits.length - 1) cs
    | none, some (word, digits) =>
      .infer word digits :: piecesFrom (word.length + digits.length - 1) cs
    | none, none => .char c :: piecesFrom 0 cs

def pieces (s : String) : List Piece := piecesFrom 0 s.toList

def mask (s : String) : String :=
  String.join ((pieces s).map fun
    | .char c => String.singleton c
    | .unnamed word _ => word
    | .infer word _ => word)

structure State where
  infers : Bool
  unnamedSeen : List (List Char) := []
  inferSeen : List (List Char) := []

def position (seen : List (List Char)) (digits : List Char) : Nat × List (List Char) :=
  match seen.findIdx? (· == digits) with
  | some i => (i, seen)
  | none => (seen.length, seen ++ [digits])

def renumberPiece (s : State) : Piece → String × State
  | .char c => (String.singleton c, s)
  | .unnamed word digits =>
    let (i, unnamedSeen) := position s.unnamedSeen digits
    (word ++ toString i, { s with unnamedSeen })
  | .infer word digits =>
    if s.infers then
      let (i, inferSeen) := position s.inferSeen digits
      (word ++ toString i, { s with inferSeen })
    else (word ++ String.ofList digits, s)

def renumberText (s : State) (text : String) : String × State :=
  (pieces text).foldl
    (fun (text, s) piece =>
      let (part, s) := renumberPiece s piece
      (text ++ part, s))
    ("", s)

mutual
def renumberFrom (s : State) : Json → Json × State
  | .string text =>
    let (text, s) := renumberText s text
    (.string text, s)
  | .array elements =>
    let (elements, s) := renumberAll s elements
    (.array elements, s)
  | .object members =>
    let (members, s) := renumberMembers s members
    (.object members, s)
  | v => (v, s)

def renumberAll (s : State) : List Json → List Json × State
  | [] => ([], s)
  | v :: vs =>
    let (v, s) := renumberFrom s v
    let (vs, s) := renumberAll s vs
    (v :: vs, s)

def renumberMembers (s : State) : List (String × Json) → List (String × Json) × State
  | [] => ([], s)
  | (name, v) :: rest =>
    let (v, s) := renumberFrom s v
    let (rest, s) := renumberMembers s rest
    ((name, v) :: rest, s)
end

def renumber (infers : Bool) (v : Json) : Json :=
  (renumberFrom { infers } v).1

end Numbering

end Ownership
