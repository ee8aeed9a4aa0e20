import Ownership.Style

namespace Ownership

namespace Trace

def line (depth : Nat) (message : String) (values : List String) : String :=
  let rendered := " ".intercalate (values.map Style.cyan.paint)
  let margin := String.ofList (List.replicate (2 * depth) ' ')
  let suffix := if rendered.isEmpty then "" else " " ++ rendered
  margin ++ Style.gray.paint "│" ++ " " ++ message ++ suffix

def enter (depth : Nat) (task : String) (values : List String) : String :=
  line depth (Style.bold.paint task) values

def leave (depth : Nat) (task : String) (result : String) : String :=
  line depth (Style.bold.paint task ++ " " ++ Style.green.paint "=>") [result]

end Trace

end Ownership
