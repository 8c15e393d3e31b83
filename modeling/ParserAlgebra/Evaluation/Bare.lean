import ParserAlgebra.Evaluation.Text

/-!
# Nodes of no particular kind

A bare node has a tag and a payload, but none of the names that the kind of its tag gives to its
parts. It works where its payload is all that its tag asks for, and fails at the first part that is
not there.
-/

namespace ParserAlgebra

def anyAhead (text : Array Char) (index : Nat) : List Value → Except Fault Bool
  | [] => .ok false
  | .text s :: rest => if aheadAt text index s.toList then .ok true else anyAhead text index rest
  | _ => .error .wrongType

def parts (payload : Value) (count : Nat) : Except Fault (List Value) :=
  let items? := match payload with
    | .list items => some items
    | .tuple items => some items
    | .text s => some (s.toList.map fun c => .text (String.singleton c))
    | _ => none
  match items? with
  | none => .error .wrongType
  | some items =>
    if items.length = count then .ok items else .error (.wrongCount count items.length)

/-- The bounds in a payload of a repetition; it never gets to run anything. -/
def bareBetween (payload : Value) (index : Nat) : Except Fault Reply := do
  match ← parts payload 4 with
  | [low, high, value, _] =>
    match low.number?, high.number? with
    | lowest, some maximum =>
      if 0 < maximum then .error (.noAttribute "Parser" "source")
      else
        match lowest with
        | some minimum =>
          if 0 < minimum then
            .ok (.reject (.stated ("Did not match between " ++ low.shown ++ " and "
              ++ high.shown ++ " times")) index)
          else .ok (.accept value index)
        | none => .error .wrongType
    | _, none => .error .wrongType
  | _ => .error .wrongType

/-- The part that running a bare node of a known tag asks for first and does not find. -/
def absentPart (tag : String) : String :=
  match tag with
  | "and" => "left"
  | "bind" => "source"
  | "char" => "description"
  | "char_where" => "predicate"
  | "delayed" => "thunk"
  | "fail" => "reason"
  | "identity" => "identity"
  | "map" => "source"
  | "memoized" => "force"
  | "or_else" => "left"
  | "product" => "left"
  | "pure" => "value"
  | "repeat" => "identity"
  | _ => "accumulator"

/-- What a bare node of a known tag does: it has a tag and a payload, but none of the names that its
kind gives them. -/
def bareReply (text : Array Char) (tag : String) (payload : Value) (index : Nat) :
    Except Fault Reply :=
  match tag with
  | "literal" =>
    match payload with
    | .text s => .ok (fixedText text index s)
    | .tuple items => do
      if ← anyAhead text index items then .ok (.accept payload (index + items.length))
      else .ok (.reject (.notAhead payload.shown index) index)
    | _ => .error .wrongType
  | "recursive_bind" => do
    let _ ← parts payload 2
    .error .wrongType
  | "repeat_between" => bareBetween payload index
  | _ => .error (.noAttribute "Parser" (absentPart tag))

def Parser.unknownTag? : Parser → Option String
  | .bare _ tag _ _ => if tag ∈ knownTags then none else some tag
  | _ => none

end ParserAlgebra
