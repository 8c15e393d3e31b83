import ParserAlgebra.Callback
import ParserAlgebra.Text.Decimal

/-!
# Functions by name

A vocabulary of functions for grammars that are written down as data. Each works on values of
certain kinds and refuses all others as of the wrong type.
-/

namespace ParserAlgebra.Vocabulary

/-- How a function of the vocabulary appears; an unnamed one has no name but its written form. -/
def label (named : Bool) (name : String) : Label :=
  let shown := "<fn " ++ name ++ ">"
  ⟨if named then name else shown, shown⟩

/-! ### Functions of one value -/

def readInteger (s : String) : Except Fault Int :=
  match Text.Decimal.read s with
  | .number n => .ok n
  | .tooLong digits => .error (.tooManyDigits digits)
  | .malformed => .error (.notAnInteger (String.ofList ((Text.quoted s).toList.take 200)))

def items? : Value → Option (List Value)
  | .text s => some (s.toList.map fun c => .text (String.singleton c))
  | .list items => some items
  | .tuple items => some items
  | _ => none

def itemAt (i : Nat) (v : Value) : Except Fault Value :=
  match items? v with
  | none => .error .wrongType
  | some items =>
    match items[i]? with
    | some item => .ok item
    | none => .error .outOfRange

def reversed : Value → Except Fault Value
  | .text s => .ok (.text (String.ofList s.toList.reverse))
  | .list items => .ok (.list items.reverse)
  | .tuple items => .ok (.tuple items.reverse)
  | _ => .error .wrongType

def onInt (f : Int → Value) : Value → Except Fault Value
  | .int n => .ok (f n)
  | _ => .error .wrongType

def onText (f : String → Value) : Value → Except Fault Value
  | .text s => .ok (f s)
  | _ => .error .wrongType

def transform? (name : String) : Option (Value → Except Fault Value) :=
  match name with
  | "same" => some .ok
  | "upper" => some (onText fun s => .text (s.map Char.toUpper))
  | "int" => some fun
    | .text s => (readInteger s).map .int
    | _ => .error .wrongType
  | "len" => some fun v =>
    match items? v with
    | some items => .ok (.int items.length)
    | none => .error .wrongType
  | "rev" => some reversed
  | "fst" => some (itemAt 0)
  | "snd" => some (itemAt 1)
  | "inc" => some (onInt fun n => .int (n + 1))
  | "neg" => some (onInt fun n => .int (-n))
  | "box" => some fun v => .ok (.list [v])
  | "left" => some fun v => .ok (.left v)
  | "right" => some fun v => .ok (.right v)
  | "var" => some (onText fun s => .expr (.var s))
  | "lit" => some (onInt fun n => .expr (.lit n))
  | "raise" => some fun _ => .error .userError
  | _ => none

/-! ### Functions of two values -/

/-- The number ten times the first, with the number that a text says added. -/
def shiftIn : Value → Value → Except Fault Value
  | .int x, .text y => (readInteger y).map fun n => .int (x * 10 + n)
  | _, _ => .error .wrongType

def combine? (name : String) : Option (Value → Value → Except Fault Value) :=
  match name with
  | "add" => some Combiner.plus
  | "pair" => some fun x y => .ok (.tuple [x, y])
  | "keep1" => some fun x _ => .ok x
  | "keep2" => some fun _ y => .ok y
  | "snoc" => some fun
    | .list xs, y => .ok (.list (xs ++ [y]))
    | _, _ => .error .wrongType
  | "cons" => some fun
    | x, .list ys => .ok (.list (x :: ys))
    | _, _ => .error .wrongType
  | "sub" => some fun
    | .int x, .int y => .ok (.int (x - y))
    | _, _ => .error .wrongType
  | "dec" => some shiftIn
  | "bracket" => some fun
    | .text x, .text y => .ok (.text ("(" ++ x ++ "." ++ y ++ ")"))
    | _, _ => .error .wrongType
  | "raise" => some fun _ _ => .error .userError
  | _ => none

def combiner? (named : Bool) (name : String) : Option Combiner :=
  if named && name == "add" then some .add
  else (combine? name).map fun apply => ⟨label named name, apply⟩

def fold? (name : String) : Option Fold :=
  match name with
  | "STRING" => some .text
  | "LIST" => some .list
  | "SUM" => some .sum
  | "UNIT" => some .unit
  | _ => none

/-! ### Functions of many values -/

def hyphenated : List Value → Except Fault String
  | [] => .ok ""
  | [.text s] => .ok s
  | .text s :: rest => (hyphenated rest).map fun t => s ++ "-" ++ t
  | _ => .error .wrongType

def spread? (name : String) : Option (List Value → Except Fault Value) :=
  match name with
  | "list" => some fun vs => .ok (.list vs)
  | "rlist" => some fun vs => .ok (.list vs.reverse)
  | "join" => some fun vs => (hyphenated vs).map .text
  | "swap" => some fun
    | [x, y] => .ok (.tuple [y, x])
    | _ => .error .wrongType
  | "raise" => some fun _ => .error .userError
  | _ => none

/-! ### Tests and collectors -/

inductive Test where
  | any
  | none
  | refuse
  | among (members : String)
  | outside (members : String)
  | range (low high : Char)

def Test.predicate : Test → Predicate
  | .any => ⟨label true "any", fun _ => .ok true, fun _ => .ok true⟩
  | .none => ⟨label true "none", fun _ => .ok false, fun _ => .ok false⟩
  | .refuse => ⟨label true "raise", fun _ => .error .userError, fun _ => .error .userError⟩
  | .among members =>
    ⟨label true "in", fun c => .ok (members.toList.contains c), fun _ => .ok false⟩
  | .outside members =>
    ⟨label true "not_in", fun c => .ok (!members.toList.contains c), fun _ => .ok true⟩
  | .range low high =>
    ⟨label true "range", fun c => .ok (low ≤ c && c ≤ high),
      fun s => .ok (String.singleton low ≤ s && s ≤ String.singleton high)⟩

/-- Collects a list backwards; the state is the tuple of the values, last one first. -/
def backwards : Accumulator where
  className := "RevAccumulator"
  shown := "<__main__.RevAccumulator object>"
  create := .ok (.tuple [])
  append
    | .tuple items, v => .ok (.tuple (v :: items))
    | _, _ => .error .wrongType
  retrieve
    | .tuple items => .ok (.list items)
    | _ => .error .wrongType

def accumulator? (name : String) : Option Accumulator :=
  match name with
  | "list" => some .list
  | "string" => some .text
  | "count" => some .count
  | "rev" => some backwards
  | _ => none

end ParserAlgebra.Vocabulary
