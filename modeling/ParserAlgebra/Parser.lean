import ParserAlgebra.Callback

/-!
# Parser trees

A parser is a finite tree that tells what to parse; nothing here parses. Every node has an
identity, so that two nodes can be told apart that look the same, and so that a memoized node has
a place for the parser it was forced to. Grammars refer to themselves through thunks, which name
a rule and are called during a parse or while a parser is optimized.
-/

namespace ParserAlgebra

mutual

/-- A node of a parser tree; `id` is its identity. -/
inductive Parser where
  | literal (id : Nat) (text : String)
  | char (id : Nat) (value : Char)
  | charWhere (id : Nat) (predicate : Predicate) (description : String)
  /-- Accepts nothing, with a value. -/
  | constant (id : Nat) (value : Value)
  /-- Accepts nothing, with the neutral value of a fold. -/
  | identity (id : Nat) (value : Value)
  | fail (id : Nat) (reason : String)
  | map (id : Nat) (source : Parser) (fn : Transform)
  | bind (id : Nat) (source : Parser) (label : Label) (next : Value → Except Fault Parser)
  /-- One after the other, with the pair of values. -/
  | product (id : Nat) (left right : Parser)
  /-- One after the other, with the values joined. -/
  | both (id : Nat) (left right : Parser) (combine : Combiner)
  /-- The right alternative, where the left one rejects. -/
  | orElse (id : Nat) (left : Parser) (right : Thunk)
  /-- As often as possible, with the values joined on to `identity`. -/
  | many (id : Nat) (source : Parser) (identity : Value) (combine : Combiner)
  | manyBetween (id : Nat) (source : Parser) (minimum maximum : Int) (identity : Value)
      (combine : Combiner)
  /-- As often as possible and at least `minimum` times, with the values collected. -/
  | collect (id : Nat) (source : Parser) (minimum : Int) (accumulator : Accumulator)
  /-- The parser of a thunk, asked for each time. -/
  | delayed (id : Nat) (thunk : Thunk)
  /-- The parser of a thunk, asked for once. -/
  | memoized (id : Nat) (thunk : Thunk)
  /-- Rounds: each runs the parser of a seed, and its value is the step to the next round. -/
  | loop (id : Nat) (label : Label) (next : Value → Except Fault Parser) (seed : Value)
  /-- A node with any tag, payload and children, of no particular kind. -/
  | bare (id : Nat) (tag : String) (payload : Value) (children : List Parser)

/-- A parser that is known when it is asked for. -/
inductive Thunk where
  | const (parser : Parser)
  /-- The parser that the rule of this name has at the time. -/
  | rule (name : String)
  /-- The optimized form of another thunk's parser, kept in a cell. -/
  | optimized (cell : Nat) (source : Thunk)

end

instance : Inhabited Parser := ⟨.fail 0 ""⟩

namespace Parser

def id : Parser → Nat
  | .literal id _ => id
  | .char id _ => id
  | .charWhere id _ _ => id
  | .constant id _ => id
  | .identity id _ => id
  | .fail id _ => id
  | .map id _ _ => id
  | .bind id _ _ _ => id
  | .product id _ _ => id
  | .both id _ _ _ => id
  | .orElse id _ _ => id
  | .many id _ _ _ => id
  | .manyBetween id _ _ _ _ _ => id
  | .collect id _ _ _ => id
  | .delayed id _ => id
  | .memoized id _ => id
  | .loop id _ _ _ => id
  | .bare id _ _ _ => id

/-- The tag of a node: the name of its kind in outlines and logs. -/
def tag : Parser → String
  | .literal .. => "literal"
  | .char .. => "char"
  | .charWhere .. => "char_where"
  | .constant .. => "pure"
  | .identity .. => "identity"
  | .fail .. => "fail"
  | .map .. => "map"
  | .bind .. => "bind"
  | .product .. => "product"
  | .both .. => "and"
  | .orElse .. => "or_else"
  | .many .. => "repeat"
  | .manyBetween .. => "repeat_between"
  | .collect .. => "repeat_accumulator"
  | .delayed .. => "delayed"
  | .memoized .. => "memoized"
  | .loop .. => "recursive_bind"
  | .bare _ tag _ _ => tag

def className : Parser → String
  | .literal .. => "Literal"
  | .char .. => "Char"
  | .charWhere .. => "CharWhere"
  | .constant .. => "Pure"
  | .identity .. => "SucceedIdentity"
  | .fail .. => "Fail"
  | .map .. => "Map"
  | .bind .. => "Bind"
  | .product .. => "Product"
  | .both .. => "And"
  | .orElse .. => "OrElse"
  | .many .. => "Repeat"
  | .manyBetween .. => "RepeatBetween"
  | .collect .. => "RepeatAccumulator"
  | .delayed .. => "Delayed"
  | .memoized .. => "Memoized"
  | .loop .. => "RecursiveBind"
  | .bare .. => "Parser"

/-- The nodes directly below, those behind thunks left out. -/
def children : Parser → List Parser
  | .map _ source _ => [source]
  | .bind _ source _ _ => [source]
  | .product _ left right => [left, right]
  | .both _ left right _ => [left, right]
  | .orElse _ left _ => [left]
  | .many _ source _ _ => [source]
  | .manyBetween _ source _ _ _ _ => [source]
  | .collect _ source _ _ => [source]
  | .bare _ _ _ children => children
  | _ => []

def knownTags : List String :=
  ["and", "bind", "char", "char_where", "delayed", "fail", "identity", "literal", "map",
    "memoized", "or_else", "product", "pure", "recursive_bind", "repeat", "repeat_accumulator",
    "repeat_between"]

def describe (c : Char) : String := "character " ++ String.singleton c

end Parser

def Thunk.label : Thunk → Label
  | .const _ => ⟨"<lambda>", "<function _thunk.<locals>.<lambda>>"⟩
  | .rule name => ⟨"thunk " ++ name, "<fn thunk " ++ name ++ ">"⟩
  | .optimized _ _ =>
    ⟨"force",
      "<bound method Memoized.force of Memoized(thunk=<function _rewrite.<locals>.<lambda>>)>"⟩

/-- The rules of a grammar. Of two rules with one name the first counts. -/
abbrev Rules := List (String × Parser)

end ParserAlgebra
