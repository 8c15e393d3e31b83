import ParserAlgebra.Run

/-!
# Repetition

Repetition is one greedy loop. It goes round only after a match that consumed something, so the
length of the text bounds it. A bounded repetition counts every match, and the rounds of a loop
from a seed go on for as long as the values ask for more.
-/

namespace ParserAlgebra

abbrev Runner := Parser → Nat → Run Reply

/-- Runs a parser again and again, each time where it stopped before, and adds up the values, until
it rejects or consumes nothing. The budget is the number of runs allowed. -/
def greedy {σ : Type} (run : Nat → Run Reply) (append : σ → Value → Except Fault σ) :
    Nat → σ → Nat → Run (σ × Nat)
  | 0, _, _ => Run.exhaust
  | budget + 1, state, index => do
    match ← run index with
    | .reject _ _ => pure (state, index)
    | .accept value stop =>
      if stop = index then pure (state, index)
      else
        let state ← Run.ofExcept (append state value)
        greedy run append budget state stop

/-- The budget of a greedy loop: a run for each character ahead, one that steps over the end of the
text, as a bare literal can, and the one that ends the loop. -/
def budgetAt (text : Array Char) (index : Nat) : Nat := text.size - index + 2

/-- Runs a parser until it rejects, at most as often as the first number says; counts the matches,
those that consumed nothing too. -/
def upTo (run : Nat → Run Reply) (join : Value → Value → Except Fault Value) :
    Nat → Nat → Value → Nat → Run (Nat × Value × Nat)
  | 0, count, value, index => pure (count, value, index)
  | more + 1, count, value, index => do
    match ← run index with
    | .reject _ _ => pure (count, value, index)
    | .accept next stop =>
      let value ← Run.ofExcept (join value next)
      upTo run join more (count + 1) value stop

def appendCounted (accumulator : Accumulator) (state : Value × Nat) (value : Value) :
    Except Fault (Value × Nat) :=
  (accumulator.append state.1 value).map fun taken => (taken, state.2 + 1)

/-- Rounds from a seed. Each runs the parser that `next` gives for the seed, where the round before
stopped, and its value tells how to go on. -/
def rounds (run : Runner) (next : Value → Except Fault Parser) :
    Nat → Value → Nat → Run Reply
  | 0, _, _ => Run.exhaust
  | n + 1, seed, index => do
    let p ← Run.ofExcept (next seed)
    match ← run p index with
    | .reject reason start => pure (.reject reason start)
    | .accept (.left seed) stop => rounds run next n seed stop
    | .accept (.right value) stop => pure (.accept value stop)
    | .accept value _ => Run.raise (.notAStep value.shown)

end ParserAlgebra
