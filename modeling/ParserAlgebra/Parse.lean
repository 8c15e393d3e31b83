import ParserAlgebra.Evaluation

/-!
# Parsing a text

`evaluate` runs a parser over a text from its beginning, and `evaluateFrom` from an offset on.
`parse` may optimize the parser first, and `parseValue` insists on a value and, unless trailing text
is allowed, on the whole text.
-/

namespace ParserAlgebra

structure Settings where
  optimized : Bool := false
  trace : Bool := false

/-- The run of a parser over a text from an offset on; `depth` bounds how deep runs nest. -/
def evaluateFrom (rules : Rules) (depth : Nat) (p : Parser) (input : String) (trace : Bool)
    (index : Nat) : Run Result := do
  let cx : Context := { rules, text := input.toList.toArray, trace }
  let reply ← interpret cx depth p index
  pure { input, reply }

def evaluate (rules : Rules) (depth : Nat) (p : Parser) (input : String) (trace : Bool) :
    Run Result :=
  evaluateFrom rules depth p input trace 0

def parse (rules : Rules) (depth : Nat) (settings : Settings) (p : Parser) (input : String) :
    Run Result := do
  let p ← if settings.optimized then optimize rules depth p else pure p
  evaluate rules depth p input settings.trace

/-- The value of a result, if it accepts and, unless trailing text is allowed, stopped at the end of
the text; otherwise the error that says where and why not. -/
def Result.value (r : Result) (path : String) (allowTrailing : Bool) : Except Fault Value :=
  match r.reply with
  | .reject reason start => .error (.noParse (.at r.input path reason start))
  | .accept value stop =>
    if allowTrailing || stop == r.input.length then .ok value
    else
      match r.input.toList[stop]? with
      | some c =>
        let reason := .trailing c (Text.feedDistance r.input.toList stop)
        .error (.noParse (.at r.input path reason stop))
      | none => .error .outOfRange

def parseValue (rules : Rules) (depth : Nat) (settings : Settings) (p : Parser) (input : String)
    (path : String) (allowTrailing : Bool) : Run Value := do
  let result ← parse rules depth settings p input
  Run.ofExcept (result.value path allowTrailing)

end ParserAlgebra
