import ParserAlgebra.Fault

/-!
# Functions given to parsers

Each carries the two names that printing uses beside what it computes. A function may end in a
fault, which ends the parse.
-/

namespace ParserAlgebra

/-- How a function appears: `name` in an outline, `shown` in a parser written out. -/
structure Label where
  name : String
  shown : String
  deriving DecidableEq

structure Transform where
  label : Label
  apply : Value → Except Fault Value

structure Combiner where
  label : Label
  apply : Value → Value → Except Fault Value

/-- A test on characters. It can be asked about other texts too, as `other` tells. -/
structure Predicate where
  label : Label
  test : Char → Except Fault Bool
  other : String → Except Fault Bool

structure Fold where
  identity : Value
  combine : Combiner

/-- A collector of values with a state of its own: `create` begins, `append` takes a value in and
`retrieve` tells what was collected. -/
structure Accumulator where
  className : String
  shown : String
  create : Except Fault Value
  append : Value → Value → Except Fault Value
  retrieve : Value → Except Fault Value

/-! ### Joining -/

namespace Combiner

/-- The sum of two numbers, or two texts, lists or tuples one after the other. -/
def plus : Value → Value → Except Fault Value
  | .text s, .text t => .ok (.text (s ++ t))
  | .list xs, .list ys => .ok (.list (xs ++ ys))
  | .tuple xs, .tuple ys => .ok (.tuple (xs ++ ys))
  | .expr e, .expr f => .ok (.expr (.add e f))
  | v, w =>
    match v.number?, w.number? with
    | some m, some n => .ok (.int (m + n))
    | _, _ => .error .wrongType

def add : Combiner := ⟨⟨"add", "<built-in function add>"⟩, plus⟩

def unit : Combiner := ⟨⟨"_keep_none", "<function _keep_none>"⟩, fun _ _ => .ok .none⟩

end Combiner

namespace Fold

def text : Fold := ⟨.text "", .add⟩

def list : Fold := ⟨.list [], .add⟩

def sum : Fold := ⟨.int 0, .add⟩

def unit : Fold := ⟨.none, .unit⟩

end Fold

/-! ### Collecting -/

namespace Accumulator

/-- Takes a value in before those taken so far. -/
def push : Value → Value → Except Fault Value
  | .list items, v => .ok (.list (v :: items))
  | _, _ => .error .wrongType

def joinTexts : List Value → Except Fault String
  | [] => .ok ""
  | .text s :: rest => (joinTexts rest).map (s ++ ·)
  | _ => .error .wrongType

/-- Collects a list. The state holds the last value first. -/
def list : Accumulator where
  className := "ListAccumulator"
  shown := "<pycombinator.monoids.ListAccumulator object>"
  create := .ok (.list [])
  append := push
  retrieve
    | .list items => .ok (.list items.reverse)
    | _ => .error .wrongType

def text : Accumulator where
  className := "StringAccumulator"
  shown := "<pycombinator.monoids.StringAccumulator object>"
  create := .ok (.list [])
  append := push
  retrieve
    | .list items => (joinTexts items.reverse).map .text
    | _ => .error .wrongType

def count : Accumulator where
  className := "CountAccumulator"
  shown := "<pycombinator.monoids.CountAccumulator object>"
  create := .ok (.int 0)
  append
    | .int n, _ => .ok (.int (n + 1))
    | _, _ => .error .wrongType
  retrieve := .ok

end Accumulator

/-! ### Testing -/

def Predicate.testText (p : Predicate) (s : String) : Except Fault Bool :=
  match s.toList with
  | [c] => p.test c
  | _ => p.other s

def Predicate.memberOf (members : List Char) : Predicate :=
  ⟨⟨"__contains__", "<built-in method __contains__ of frozenset object>"⟩,
    fun c => .ok (members.contains c), fun _ => .ok false⟩

end ParserAlgebra
