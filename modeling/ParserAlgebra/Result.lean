import ParserAlgebra.Value
import ParserAlgebra.Text.JsonString
import ParserAlgebra.Text.Position

/-!
# Results

A parser tried at an offset accepts, with a value and the offset where it stopped, or rejects, with
a reason and the offset where the failing parser started. A result is such a reply together with
the text that was parsed.
-/

namespace ParserAlgebra

inductive Reason where
  | ended (expected : String)
  | unmatched (expected : String) (index : Nat)
  | notAhead (wanted : String) (index : Nat)
  | stated (text : String)
  | tooFew (minimum : Int) (count : Nat)
  | outside (minimum maximum : Int)
  | trailing (c : Char) (column : Nat)
  deriving DecidableEq

def Reason.text : Reason → String
  | .ended expected => "Input has ended but was expecting " ++ expected
  | .unmatched expected index =>
    "Input did not contain " ++ expected ++ " at index " ++ toString index
  | .notAhead wanted index =>
    "Input did not start with " ++ wanted ++ " at index " ++ toString index
  | .stated text => text
  | .tooFew minimum count =>
    "Expected at least " ++ toString minimum ++ " repetitions but matched " ++ toString count
  | .outside minimum maximum =>
    "Did not match between " ++ toString minimum ++ " and " ++ toString maximum ++ " times"
  | .trailing c column =>
    "Unexpected " ++ Text.JsonString.plain (String.singleton c) ++ " at column "
      ++ toString column

inductive Reply where
  | accept (value : Value) (stop : Nat)
  | reject (reason : Reason) (start : Nat)

/-- A reply and the text it is about. -/
structure Result where
  input : String
  reply : Reply

def defaultPath : String := "<string>"

namespace Result

/-- The offset of a result: where it stopped, or where the failing parser started. -/
def offset (r : Result) : Nat :=
  match r.reply with
  | .accept _ stop => stop
  | .reject _ start => start

def rest (r : Result) : String := String.ofList (r.input.toList.drop r.offset)

def line (r : Result) : Nat := Text.lineAt r.input.toList r.offset

def column (r : Result) : Nat := Text.columnAt r.input.toList r.offset

def shown (r : Result) : String :=
  match r.reply with
  | .accept value stop =>
    "Success(value=" ++ value.shown ++ ", input=" ++ Text.quoted r.input ++ ", offset="
      ++ toString stop ++ ")"
  | .reject reason start =>
    "Failure(reason=" ++ Text.quoted reason.text ++ ", input=" ++ Text.quoted r.input
      ++ ", start=" ++ toString start ++ ")"

/-- Equality of results: of their texts, and of all that the reply tells. -/
def equal (r s : Result) : Bool :=
  match r.reply, s.reply with
  | .accept v stop, .accept w stop' => v.equal w && r.input == s.input && stop == stop'
  | .reject why start, .reject why' start' =>
    why.text == why'.text && r.input == s.input && start == start'
  | _, _ => false

end Result

/-- The line that reports a reason: the path, the line, and the reason's text. -/
def report (path : String) (line : Nat) (reason : Reason) : String :=
  path ++ ":" ++ toString line ++ " " ++ reason.text

/-- The error of a text that does not parse. -/
structure ParseError where
  reason : Reason
  path : String
  start : Nat
  line : Nat
  column : Nat
  deriving DecidableEq

def ParseError.at (input path : String) (reason : Reason) (start : Nat) : ParseError :=
  { reason, path, start
    line := Text.lineAt input.toList start
    column := Text.columnAt input.toList start }

def ParseError.message (e : ParseError) : String := report e.path e.line e.reason

end ParserAlgebra
