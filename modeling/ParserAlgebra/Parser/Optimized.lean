import ParserAlgebra.Parser.Chain

/-!
# Optimized parsers

A chain of alternatives that are all single characters becomes one test of membership. Every other
choice keeps its left side, optimized, and gets a right side that is optimized when it is first
asked for and then kept. Sequences and repetitions are rebuilt over optimized parts; leaves and
nodes whose parsers are known only during a parse stay as they are. `n` bounds the depth throughout.
-/

namespace ParserAlgebra

/-- The part of a bare node that optimizing asks for and does not find. -/
def Parser.missingPart (tag : String) : Option String :=
  if tag ∈ ["or_else", "product", "and"] then some "left"
  else if tag ∈ ["map", "bind", "repeat", "repeat_between", "repeat_accumulator"] then
    some "source"
  else none

/-- The optimized form of a parser, given what calling a thunk does. -/
def optimizeWith (call : Thunk → Run Parser) (n : Nat) : Parser → Run Parser
  | .orElse id left right => do
    match ← Chain.leaves call n (.orElse id left right) [] with
    | (some chars, _) => Chain.charSet chars
    | (none, _) =>
      let cell ← Run.build Build.fresh
      let left ← optimizeWith call n left
      Run.build (Build.orElseThunk left (.optimized cell right))
  | .map _ source fn => do
    let source ← optimizeWith call n source
    Run.build (Build.map source fn)
  | .bind _ source label next => do
    let source ← optimizeWith call n source
    Run.build (Build.bind source label next)
  | .product _ left right => do
    let left ← optimizeWith call n left
    let right ← optimizeWith call n right
    Run.build (Build.product left right)
  | .both _ left right combine => do
    let left ← optimizeWith call n left
    let right ← optimizeWith call n right
    Run.build (Build.both left right combine)
  | .many _ source identity combine => do
    let source ← optimizeWith call n source
    Run.build (Build.many source ⟨identity, combine⟩)
  | .manyBetween _ source minimum maximum identity combine => do
    let source ← optimizeWith call n source
    Run.build (Build.manyBetween source minimum maximum ⟨identity, combine⟩)
  | .collect _ source minimum accumulator => do
    let source ← optimizeWith call n source
    Run.build (Build.collect source minimum accumulator)
  | .bare id tag payload children =>
    match Parser.missingPart tag with
    | some part => Run.raise (.noAttribute "Parser" part)
    | none => pure (.bare id tag payload children)
  | p => pure p

/-- Calls a thunk. A rule's thunk counts the call before it looks for the rule. -/
def Thunk.call (rules : Rules) : Nat → Thunk → Run Parser
  | 0, _ => Run.exhaust
  | _ + 1, .const p => pure p
  | _ + 1, .rule name => do
    Run.countCall name
    match rules.lookup name with
    | some p => pure p
    | none => Run.raise (.missingKey name)
  | n + 1, .optimized cell source =>
    Run.once (.right cell) do
      let p ← Thunk.call rules n source
      optimizeWith (Thunk.call rules n) n p

def optimize (rules : Rules) (n : Nat) (p : Parser) : Run Parser :=
  optimizeWith (Thunk.call rules n) n p

end ParserAlgebra
