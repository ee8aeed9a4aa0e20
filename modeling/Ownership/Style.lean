namespace Ownership

structure Style where
  opening : Nat
  closing : Nat
deriving DecidableEq

namespace Style

def red : Style := ⟨31, 39⟩
def green : Style := ⟨32, 39⟩
def yellow : Style := ⟨33, 39⟩
def blue : Style := ⟨34, 39⟩
def cyan : Style := ⟨36, 39⟩
def gray : Style := ⟨90, 39⟩
def bold : Style := ⟨1, 22⟩

def escape (code : Nat) : String :=
  s!"\x1b[{code}m"

def aroundBreaks (before after : List Char) : List Char → List Char
  | [] => []
  | '\r' :: '\n' :: rest => before ++ '\r' :: '\n' :: after ++ aroundBreaks before after rest
  | '\n' :: rest => before ++ '\n' :: after ++ aroundBreaks before after rest
  | c :: rest => c :: aroundBreaks before after rest

def paint (style : Style) (text : String) : String :=
  if text.isEmpty then ""
  else
    let opening := escape style.opening
    let closing := escape style.closing
    let reopened := text.replace closing (closing ++ opening)
    opening ++ String.ofList (aroundBreaks closing.toList opening.toList reopened.toList) ++ closing

def paintIf (coloured : Bool) (style : Style) (text : String) : String :=
  if coloured then style.paint text else text

end Style

end Ownership
