import ParserAlgebra.Run

/-!
# Looking at the text

What the leaves of a parser tree find at an offset: a fixed text, or one character that passes a
test.
-/

namespace ParserAlgebra

def aheadAt (text : Array Char) : Nat → List Char → Bool
  | i, [] => i ≤ text.size
  | i, c :: cs => text[i]? == some c && aheadAt text (i + 1) cs

def oneChar (text : Array Char) (index : Nat) (test : Char → Except Fault Bool)
    (description : String) : Run Reply := do
  match text[index]? with
  | none => pure (.reject (.ended description) index)
  | some c =>
    if ← Run.ofExcept (test c) then pure (.accept (.text (String.singleton c)) (index + 1))
    else pure (.reject (.unmatched description index) index)

def fixedText (text : Array Char) (index : Nat) (wanted : String) : Reply :=
  if aheadAt text index wanted.toList then .accept (.text wanted) (index + wanted.length)
  else .reject (.notAhead wanted index) index

end ParserAlgebra
