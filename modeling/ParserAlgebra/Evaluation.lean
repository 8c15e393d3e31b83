import ParserAlgebra.Evaluation.Bare
import ParserAlgebra.Evaluation.Repetition
import ParserAlgebra.Parser.Optimized

/-!
# Running parsers

A run walks a parser tree over one text. `step` tells what a node does in terms of the runs of the
parsers below it, and `interpret` ties the knot: its first argument bounds how deep runs nest, and a
run that needs more ends as exhausted, which is no answer. A bound that suffices gives the same
answer as every larger one.
-/

namespace ParserAlgebra

structure Context where
  rules : Rules
  text : Array Char
  trace : Bool

/-! ### Sequences and choices -/

/-- Goes on after an acceptance; a rejection is the answer. -/
def Run.andThen (first : Run Reply) (next : Value → Nat → Run Reply) : Run Reply := do
  match ← first with
  | .accept value stop => next value stop
  | .reject reason start => pure (.reject reason start)

/-- Goes on after a rejection; an acceptance is the answer. -/
def Run.orElse (first : Run Reply) (next : Run Reply) : Run Reply := do
  match ← first with
  | .accept value stop => pure (.accept value stop)
  | .reject _ _ => next

/-! ### Nodes -/

/-- What a node does, `run` being the run of the parsers below it and `n` the bound on it. -/
def nodeReply (cx : Context) (n : Nat) (run : Runner) (p : Parser) (index : Nat) : Run Reply :=
  match p with
  | .literal _ wanted => pure (fixedText cx.text index wanted)
  | .char _ c => oneChar cx.text index (fun d => .ok (d == c)) (Parser.describe c)
  | .charWhere _ predicate description => oneChar cx.text index predicate.test description
  | .constant _ value => pure (.accept value index)
  | .identity _ value => pure (.accept value index)
  | .fail _ reason => pure (.reject (.stated reason) index)
  | .map _ source fn =>
    (run source index).andThen fun value stop => do
      let value ← Run.ofExcept (fn.apply value)
      pure (.accept value stop)
  | .bind _ source _ next =>
    (run source index).andThen fun value stop => do
      let p ← Run.ofExcept (next value)
      run p stop
  | .product _ left right =>
    (run left index).andThen fun first stop =>
      (run right stop).andThen fun second stop => pure (.accept (.tuple [first, second]) stop)
  | .both _ left right combine =>
    (run left index).andThen fun first stop =>
      (run right stop).andThen fun second stop => do
        let value ← Run.ofExcept (combine.apply first second)
        pure (.accept value stop)
  | .orElse _ left right =>
    (run left index).orElse do
      let p ← right.call cx.rules n
      run p index
  | .many _ source identity combine => do
    let (value, stop) ← greedy (run source) combine.apply (budgetAt cx.text index) identity index
    pure (.accept value stop)
  | .manyBetween _ source minimum maximum identity combine => do
    let (count, value, stop) ← upTo (run source) combine.apply maximum.toNat 0 identity index
    if (count : Int) < minimum then pure (.reject (.outside minimum maximum) index)
    else pure (.accept value stop)
  | .collect _ source minimum accumulator => do
    let start ← Run.ofExcept accumulator.create
    let ((state, count), stop) ←
      greedy (run source) (appendCounted accumulator) (budgetAt cx.text index) (start, 0) index
    if (count : Int) < minimum then pure (.reject (.tooFew minimum count) index)
    else
      let value ← Run.ofExcept (accumulator.retrieve state)
      pure (.accept value stop)
  | .delayed _ thunk => do
    let p ← thunk.call cx.rules n
    run p index
  | .memoized id thunk => do
    let p ← Run.once (.node id) (thunk.call cx.rules n)
    run p index
  | .loop _ _ next seed => rounds run next n seed index
  | .bare _ tag payload _ => Run.ofExcept (bareReply cx.text tag payload index)

/-- What a node does, with what it writes to the log when the run is traced. -/
def step (cx : Context) (n : Nat) (run : Runner) (p : Parser) (index : Nat) : Run Reply := do
  match p.unknownTag? with
  | some tag => Run.raise (.unimplemented tag)
  | none =>
    if cx.trace then Run.write (.trying p.tag index)
    let reply ← nodeReply cx n run p index
    if cx.trace then
      match reply with
      | .reject reason start => Run.write (.failed p.tag start reason)
      | .accept _ _ => pure ()
    pure reply

/-- The run of a parser at an offset, nested at most as deep as the first number says. -/
def interpret (cx : Context) : Nat → Runner
  | 0 => fun _ _ => Run.exhaust
  | n + 1 => step cx n (interpret cx n)

/-- An untraced run does what its node does. -/
theorem interpret_succ {cx : Context} (ht : cx.trace = false) {p : Parser}
    (hp : p.unknownTag? = none) (n i : Nat) :
    interpret cx (n + 1) p i = nodeReply cx n (interpret cx n) p i := by
  simp [interpret, step, hp, ht]

end ParserAlgebra
