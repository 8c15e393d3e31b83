import ParserAlgebra.Expr
import ParserAlgebra.Text.Quoted

/-!
# Values

What parsers produce and what the functions given to them consume. A truth value is not an integer,
and a list is not a tuple. `Value.left` and `Value.right` are the two kinds of step of a parser
that runs in rounds: go on from this seed, or finish with this value.
-/

namespace ParserAlgebra

inductive Value where
  | none
  | bool (b : Bool)
  | int (n : Int)
  | text (s : String)
  | list (items : List Value)
  | tuple (items : List Value)
  | left (value : Value)
  | right (value : Value)
  | expr (e : Expr)
  deriving Inhabited

def Expr.shown : Expr → String
  | .lit n => "Lit(value=" ++ toString n ++ ")"
  | .var x => "Var(name=" ++ Text.quoted x ++ ")"
  | .add l r => "Add(left=" ++ l.shown ++ ", right=" ++ r.shown ++ ")"
  | .mul l r => "Mul(left=" ++ l.shown ++ ", right=" ++ r.shown ++ ")"

/-- Items between brackets, with a comma after a single one of a tuple. -/
def bracketed (asTuple : Bool) (items : List String) : String :=
  if asTuple then
    match items with
    | [x] => "(" ++ x ++ ",)"
    | _ => "(" ++ String.intercalate ", " items ++ ")"
  else "[" ++ String.intercalate ", " items ++ "]"

namespace Value

mutual

def shown : Value → String
  | .none => "None"
  | .bool true => "True"
  | .bool false => "False"
  | .int n => toString n
  | .text s => Text.quoted s
  | .list items => bracketed false (shownAll items)
  | .tuple items => bracketed true (shownAll items)
  | .left v => "Left(value=" ++ v.shown ++ ")"
  | .right v => "Right(value=" ++ v.shown ++ ")"
  | .expr e => e.shown

def shownAll : List Value → List String
  | [] => []
  | v :: vs => v.shown :: shownAll vs

end

/-- A value inside a message: a text stands for itself. -/
def spoken : Value → String
  | .text s => s
  | v => v.shown

/-- The number that a value counts as in a comparison. -/
def number? : Value → Option Int
  | .int n => some n
  | .bool b => some (if b then 1 else 0)
  | _ => Option.none

mutual

/-- Equality of values; `strict` tells truth values from the numbers zero and one. -/
def eqv (strict : Bool) : Value → Value → Bool
  | .none, .none => true
  | .bool a, .bool b => a == b
  | .int m, .int n => m == n
  | .bool a, .int n => !strict && (if a then 1 else 0) == n
  | .int m, .bool b => !strict && m == (if b then 1 else 0)
  | .text s, .text t => s == t
  | .list xs, .list ys => eqvAll strict xs ys
  | .tuple xs, .tuple ys => eqvAll strict xs ys
  | .left v, .left w => eqv strict v w
  | .right v, .right w => eqv strict v w
  | .expr e, .expr f => e == f
  | _, _ => false

def eqvAll (strict : Bool) : List Value → List Value → Bool
  | [], [] => true
  | x :: xs, y :: ys => eqv strict x y && eqvAll strict xs ys
  | _, _ => false

end

/-- Equality in which a truth value equals the number that it counts as. -/
def equal (v w : Value) : Bool := eqv false v w

/-- Equality in which all kinds of value are kept apart. -/
def identical (v w : Value) : Bool := eqv true v w

def className : Value → String
  | .none => "NoneType"
  | .bool _ => "bool"
  | .int _ => "int"
  | .text _ => "str"
  | .list _ => "list"
  | .tuple _ => "tuple"
  | .left _ => "Left"
  | .right _ => "Right"
  | .expr (.lit _) => "Lit"
  | .expr (.var _) => "Var"
  | .expr (.add ..) => "Add"
  | .expr (.mul ..) => "Mul"

mutual

/-- Whether a value may be a member of a set: no list stands in it. -/
def hashable : Value → Bool
  | .list _ => false
  | .tuple items => hashableAll items
  | .left v => v.hashable
  | .right v => v.hashable
  | _ => true

def hashableAll : List Value → Bool
  | [] => true
  | v :: vs => v.hashable && hashableAll vs

end

end Value

end ParserAlgebra
