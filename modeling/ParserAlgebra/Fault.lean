import ParserAlgebra.Result

/-!
# Faults

What stops an operation for good. A rejection is an answer of a parser, from which alternatives
recover; nothing recovers from a fault.
-/

namespace ParserAlgebra

inductive Fault where
  | userError
  | wrongType
  | outOfRange
  | notAParser (shown : String)
  | notOneCharacter (shown : String)
  | notAnInteger (shown : String)
  | tooManyDigits (digits : Nat)
  | unwritable
  /-- A payload has another number of parts than its kind of parser needs. -/
  | wrongCount (expected : Nat) (actual : Nat)
  /-- An entry of a list of bindings binds no name. -/
  | notABinding (index : Nat)
  | missingKey (key : String)
  | unbound (name : String)
  | unimplemented (tag : String)
  | notAStep (shown : String)
  | noAttribute (owner name : String)
  | immutable (owner : String)
  | frozen (field : String)
  | noParse (error : ParseError)
  | noSuchFile
  | tooDeep
  deriving DecidableEq

/-- The text of a fault; some have none. -/
def Fault.message : Fault → Option String
  | .userError => some "boom"
  | .wrongType => none
  | .outOfRange => none
  | .notAParser shown => some ("Expected a Parser or a callable, got " ++ shown)
  | .notOneCharacter shown => some ("Expected a single character, got " ++ shown)
  | .notAnInteger shown => some ("invalid literal for int() with base 10: " ++ shown)
  | .tooManyDigits digits =>
    some ("Exceeds the limit (4300 digits) for integer string conversion: value has "
      ++ toString digits ++ " digits; use sys.set_int_max_str_digits() to increase the limit")
  | .unwritable =>
    some ("Exceeds the limit (4300 digits) for integer string conversion; "
      ++ "use sys.set_int_max_str_digits() to increase the limit")
  | .wrongCount expected actual =>
    if actual < expected then
      some ("not enough values to unpack (expected " ++ toString expected ++ ", got "
        ++ toString actual ++ ")")
    else some ("too many values to unpack (expected " ++ toString expected ++ ")")
  | .notABinding index =>
    some ("dictionary update sequence element #" ++ toString index
      ++ " has length 0; 2 is required")
  | .missingKey key => some key
  | .unbound name => some ("Unbound variable \"" ++ name ++ "\"")
  | .unimplemented tag => some ("Unimplemented node type '" ++ tag ++ "'")
  | .notAStep shown =>
    some ("recursive_bind step returned " ++ shown ++ ", not Left or Right")
  | .noAttribute owner name =>
    some ("'" ++ owner ++ "' object has no attribute '" ++ name ++ "'")
  | .immutable owner => some (owner ++ " objects are immutable")
  | .frozen field => some ("cannot assign to field '" ++ field ++ "'")
  | .noParse error => some error.message
  | .noSuchFile => none
  | .tooDeep => none

end ParserAlgebra
