import ParserAlgebra.Expr.Fold
import ParserAlgebra.Parse
import ParserAlgebra.Text.Decimal
import ParserAlgebra.Text.Letter

/-!
# The grammar of expressions

Sums of products of numbers and names, with a space on both sides of each operator. Both operators
nest to the right. A number is a run of ASCII digits, at most 4300 of them, and a name is a run of
letters. The operands of a run of one operator are collected by a repetition and then folded, so
runs of any length nest no deeper than short ones.
-/

namespace ParserAlgebra.Expr

structure Grammar where
  digit : Parser
  number : Parser
  name : Parser
  factor : Parser
  add : Parser
  mul : Parser
  term : Parser
  expression : Parser

namespace Grammar

def numeral : Value → Except Fault Value
  | .text s =>
    if Text.Decimal.maxDigits < s.length then .error (.tooManyDigits s.length)
    else .ok (.expr (.lit (Text.Decimal.ofDigits (s.toList.map fun c => c.toNat - '0'.toNat))))
  | _ => .error .wrongType

def named : Value → Except Fault Value
  | .text s => .ok (.expr (.var s))
  | _ => .error .wrongType

def foldRight (join : Expr → Expr → Expr) : Expr → List Expr → Expr
  | first, [] => first
  | first, second :: rest => join first (foldRight join second rest)

def operands : List Value → Except Fault (List Expr)
  | [] => .ok []
  | .expr e :: rest => (operands rest).map (e :: ·)
  | _ => .error .wrongType

def run (join : Expr → Expr → Expr) : Value → Except Fault Value
  | .tuple [.expr first, .list rest] =>
    (operands rest).map fun rest => .expr (foldRight join first rest)
  | _ => .error .wrongType

def letter : Predicate :=
  ⟨⟨"isalpha", "<method 'isalpha' of 'str' objects>"⟩, fun c => .ok (Text.isLetter c),
    fun s => .ok (!s.isEmpty && s.toList.all Text.isLetter)⟩

def build : Build Grammar := do
  let digit ← Build.charIn '0' ['1', '2', '3', '4', '5', '6', '7', '8', '9']
  let digits ← Build.collect digit 1 .text
  let number ← Build.map digits ⟨⟨"<lambda>", "<function <lambda>>"⟩, numeral⟩
  let letters ← Build.oneOrMore (← Build.charWhere letter "a letter") .text
  let name ← Build.map letters ⟨⟨"Var", "<class 'pycombinator.expression.Var'>"⟩, named⟩
  let factor ← Build.orElse number name
  let add ← Build.void (← Build.literal " + ")
  let mul ← Build.void (← Build.literal " * ")
  let factors ← Build.collect (← Build.keepRight mul factor) 0 .list
  let term ← Build.map (← Build.product factor factors)
    ⟨⟨"_product", "<function _product>"⟩, run .mul⟩
  let terms ← Build.collect (← Build.keepRight add term) 0 .list
  let expression ← Build.map (← Build.product term terms)
    ⟨⟨"_sum", "<function _sum>"⟩, run .add⟩
  return { digit, number, name, factor, add, mul, term, expression }

end Grammar

/-- The grammar of expressions. Its nodes have the identities from zero on. -/
def grammar : Grammar := Build.result 0 Grammar.build

def firstFree : Nat := (Grammar.build 0).2

/-- A memory in which only the grammar of expressions was built. -/
def freshMemory : Memory := { nextId := firstFree }

/-- A bound on how deep runs of the grammar nest, on any text. -/
def depth : Nat := 64

/-- Parses a text as an expression; what follows the expression is left. -/
def parse (optimized : Bool) (text : String) : Run Result :=
  ParserAlgebra.parse [] depth { optimized } grammar.expression text

/-- The value of a text that is an expression as a whole. -/
def evaluateText (text : String) (env : List (String × Int)) : Run Int := do
  match ← parseValue [] depth {} grammar.expression text defaultPath false with
  | .expr e => Run.ofExcept (e.evaluate env)
  | _ => Run.raise .wrongType

end ParserAlgebra.Expr
