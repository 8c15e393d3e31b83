import ParserAlgebra.Parser.Build
import ParserAlgebra.Vocabulary.Function

/-!
# Functions from values to parsers

The part of the vocabulary that chooses a parser by a value. The nodes made here while a parse runs
are never compared with others, so their identities do not matter and begin at zero.
-/

namespace ParserAlgebra.Vocabulary

/-- A choice of a parser by a value. -/
inductive Binder where
  | const (p : Parser)
  | constant
  | literal
  | char
  | fail
  | repeatText (s : String)
  | times (p : Parser)
  | atLeast (p : Parser)
  /-- The parser of the last case that is the value. -/
  | switch (cases : List (Value × Parser)) (otherwise : Parser)
  /-- A round of counting up to a limit. -/
  | count (source : Parser) (limit : Value) (finish : Parser)
  /-- A round of collecting a list. -/
  | collect (source finish : Parser)
  | refuse

def characterOf : Value → Except Fault Char
  | .text s =>
    match s.toList with
    | [c] => .ok c
    | _ => .error (.notOneCharacter (Text.quoted s))
  | v => .error (.notOneCharacter v.shown)

namespace Binder

def name : Binder → String
  | .const _ => "const"
  | .constant => "pure"
  | .literal => "literal"
  | .char => "char"
  | .fail => "fail"
  | .repeatText _ => "repeat_str"
  | .times _ => "times"
  | .atLeast _ => "at_least"
  | .switch _ _ => "switch"
  | .count _ _ _ => "count"
  | .collect _ _ => "collect"
  | .refuse => "raise"

def label (b : Binder) : Label := Vocabulary.label true b.name

/-- Adds a value to a list, as the seed of the next round. -/
def grow (taken : Value) : Transform :=
  ⟨Vocabulary.label true "grow", fun v =>
    match taken with
    | .list items => .ok (.left (.list (items ++ [v])))
    | _ => .error .wrongType⟩

def apply (b : Binder) (v : Value) : Except Fault Parser :=
  match b with
  | .const p => .ok p
  | .constant => .ok (Build.result 0 (Build.constant v))
  | .literal =>
    match v with
    | .text s => .ok (Build.result 0 (Build.literal s))
    | _ => .error .wrongType
  | .char => do return Build.result 0 (Build.char (← characterOf v))
  | .fail =>
    match v with
    | .text s => .ok (Build.result 0 (Build.fail s))
    | _ => .error .wrongType
  | .repeatText s =>
    match v with
    | .int n => .ok (Build.result 0 (Build.literal (String.join (List.replicate n.toNat s))))
    | _ => .error .wrongType
  | .times p =>
    match v with
    | .int n => .ok (Build.result 0 (Build.manyBetween p n n .text))
    | _ => .error .wrongType
  | .atLeast p =>
    match v with
    | .int n => .ok (Build.result 0 (Build.repeatAtLeast p n .text))
    | _ => .error .wrongType
  | .switch cases otherwise =>
    match cases.reverse.find? fun c => c.1.identical v with
    | some c => .ok c.2
    | none => .ok otherwise
  | .count source limit finish =>
    if v.equal limit then .ok (Build.result 0 (Build.as finish (.right v)))
    else
      match v.number? with
      | some n => .ok (Build.result 0 (Build.as source (.left (.int (n + 1)))))
      | none => .error .wrongType
  | .collect source finish =>
    .ok (Build.result 0 do
      let done ← Build.as finish (.right v)
      let more ← Build.map source (grow v)
      Build.orElse done more)
  | .refuse => .error .userError

end Binder

end ParserAlgebra.Vocabulary
