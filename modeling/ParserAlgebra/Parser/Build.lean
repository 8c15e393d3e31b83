import ParserAlgebra.Run

/-!
# Building parsers

The constructors of leaves and the combinators. Each makes its nodes with fresh identities. The
derived ones are sequences and choices of the basic ones: `keepLeft` and `keepRight` map a product,
`tupled` maps products into a growing tuple, `repeatAtLeast` puts copies in front of a repetition,
and `charIn` and `stringIn` are choices nested to the left.
-/

namespace ParserAlgebra.Build

def defaultReason : String := "This parser always fails"

def defaultDescription : String := "a character matching the predicate"

/-! ### Nodes -/

def literal (text : String) : Build Parser := do return .literal (← fresh) text

def char (value : Char) : Build Parser := do return .char (← fresh) value

def charWhere (predicate : Predicate) (description : String) : Build Parser := do
  return .charWhere (← fresh) predicate description

def constant (value : Value) : Build Parser := do return .constant (← fresh) value

def identity (value : Value) : Build Parser := do return .identity (← fresh) value

def fail (reason : String) : Build Parser := do return .fail (← fresh) reason

def map (source : Parser) (fn : Transform) : Build Parser := do return .map (← fresh) source fn

def bind (source : Parser) (label : Label) (next : Value → Except Fault Parser) :
    Build Parser := do
  return .bind (← fresh) source label next

def product (left right : Parser) : Build Parser := do return .product (← fresh) left right

def both (left right : Parser) (combine : Combiner) : Build Parser := do
  return .both (← fresh) left right combine

/-- The parser of a thunk, where the left one rejects. -/
def orElseThunk (left : Parser) (right : Thunk) : Build Parser := do
  return .orElse (← fresh) left right

def orElse (left right : Parser) : Build Parser := orElseThunk left (.const right)

def many (source : Parser) (f : Fold) : Build Parser := do
  return .many (← fresh) source f.identity f.combine

def manyBetween (source : Parser) (minimum maximum : Int) (f : Fold) : Build Parser := do
  return .manyBetween (← fresh) source minimum maximum f.identity f.combine

def collect (source : Parser) (minimum : Int) (accumulator : Accumulator) : Build Parser := do
  return .collect (← fresh) source minimum accumulator

def delayed (thunk : Thunk) : Build Parser := do return .delayed (← fresh) thunk

def memoized (thunk : Thunk) : Build Parser := do return .memoized (← fresh) thunk

def loop (label : Label) (next : Value → Except Fault Parser) (seed : Value) :
    Build Parser := do
  return .loop (← fresh) label next seed

def bare (tag : String) (payload : Value) (children : List Parser) : Build Parser := do
  return .bare (← fresh) tag payload children

/-! ### Functions of derived combinators -/

def always (value : Value) : Transform :=
  ⟨⟨"<lambda>", "<function Parser.as_.<locals>.<lambda>>"⟩, fun _ => .ok value⟩

def firstOf : Value → Except Fault Value
  | .tuple (v :: _) => .ok v
  | _ => .error .outOfRange

def secondOf : Value → Except Fault Value
  | .tuple (_ :: v :: _) => .ok v
  | _ => .error .outOfRange

def keepFirst : Transform :=
  ⟨⟨"<lambda>", "<function Parser.keep_left.<locals>.<lambda>>"⟩, firstOf⟩

def keepSecond : Transform :=
  ⟨⟨"<lambda>", "<function Parser.keep_right.<locals>.<lambda>>"⟩, secondOf⟩

def tupledLabel : Label := ⟨"<lambda>", "<function tupled.<locals>.<lambda>>"⟩

def single : Transform := ⟨tupledLabel, fun v => .ok (.tuple [v])⟩

/-- The tuple at the first place of a pair, with the second place added to it. -/
def extendTuple : Value → Except Fault Value
  | .tuple [.tuple items, v] => .ok (.tuple (items ++ [v]))
  | _ => .error .wrongType

def extend : Transform := ⟨tupledLabel, extendTuple⟩

/-- Applies a function of several arguments to the items of a tuple. -/
def spread (fn : List Value → Except Fault Value) : Transform :=
  ⟨⟨"<lambda>", "<function map_n.<locals>.<lambda>>"⟩, fun
    | .tuple items => fn items
    | _ => .error .wrongType⟩

/-! ### Derived combinators -/

def as (source : Parser) (value : Value) : Build Parser := map source (always value)

def void (source : Parser) : Build Parser := as source .none

def keepLeft (left right : Parser) : Build Parser := do map (← product left right) keepFirst

def keepRight (left right : Parser) : Build Parser := do map (← product left right) keepSecond

/-- A parser with `n` copies of another in front of it, the values joined from the right. -/
def repeatBefore (source : Parser) (combine : Combiner) : Nat → Parser → Build Parser
  | 0, p => return p
  | n + 1, p => do repeatBefore source combine n (← both source p combine)

def repeatAtLeast (source : Parser) (minimum : Int) (f : Fold) : Build Parser := do
  repeatBefore source f.combine minimum.toNat (← many source f)

def zeroOrMore (source : Parser) (f : Fold) : Build Parser := repeatAtLeast source 0 f

def oneOrMore (source : Parser) (f : Fold) : Build Parser := repeatAtLeast source 1 f

/-- The first character of a list that is ahead. -/
def charIn (first : Char) (rest : List Char) : Build Parser := do
  rest.foldlM (fun p c => do orElse p (← char c)) (← char first)

def stringIn (first : String) (rest : List String) : Build Parser := do
  rest.foldlM (fun p s => do orElse p (← literal s)) (← literal first)

/-- All parsers in turn, with the tuple of their values. -/
def tupled (first : Parser) (rest : List Parser) : Build Parser := do
  rest.foldlM (fun p q => do map (← product p q) extend) (← map first single)

/-- All parsers in turn, with a function of their values. -/
def mapN (fn : List Value → Except Fault Value) (first : Parser) (rest : List Parser) :
    Build Parser := do
  map (← tupled first rest) (spread fn)

end ParserAlgebra.Build
