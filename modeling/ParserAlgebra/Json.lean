import ParserAlgebra.Text.JsonString

/-!
# JSON documents

Documents of strings, integers and arrays, written with one item a line and two spaces for each
level. An empty array stands on one line.
-/

namespace ParserAlgebra

inductive Json where
  | text (s : String)
  | number (n : Int)
  | array (items : List Json)
  deriving Inhabited

namespace Json

def pad (level : Nat) : String := String.ofList (List.replicate (2 * level) ' ')

mutual

/-- A document inside `level` arrays. -/
def write (level : Nat) : Json → String
  | .text s => Text.JsonString.ascii s
  | .number n => toString n
  | .array [] => "[]"
  | .array (item :: items) =>
    "[\n" ++ pad (level + 1) ++ write (level + 1) item ++ writeRest (level + 1) items ++ "\n"
      ++ pad level ++ "]"

def writeRest (level : Nat) : List Json → String
  | [] => ""
  | item :: items => ",\n" ++ pad level ++ write level item ++ writeRest level items

end

mutual

def depth : Json → Nat
  | .text _ => 0
  | .number _ => 0
  | .array items => depthAll items + 1

def depthAll : List Json → Nat
  | [] => 0
  | item :: items => max item.depth (depthAll items)

end

end Json

end ParserAlgebra
