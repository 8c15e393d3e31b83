/-!
# Decimal integers

Reading accepts blanks around the number, a sign, single underscores between digits, and the decimal
digits of every script of Unicode 14.0. A number of more than 4300 digits is refused, leading zeros
counted, and so is writing one.
-/

namespace ParserAlgebra.Text.Decimal

def maxDigits : Nat := 4300

/-- The code points of the digits zero (general category Nd); nine follow each. -/
def zeros : List Nat := [
  0x30, 0x660, 0x6f0, 0x7c0, 0x966, 0x9e6, 0xa66, 0xae6, 0xb66, 0xbe6, 0xc66, 0xce6, 0xd66,
  0xde6, 0xe50, 0xed0, 0xf20, 0x1040, 0x1090, 0x17e0, 0x1810, 0x1946, 0x19d0, 0x1a80, 0x1a90,
  0x1b50, 0x1bb0, 0x1c40, 0x1c50, 0xa620, 0xa8d0, 0xa900, 0xa9d0, 0xa9f0, 0xaa50, 0xabf0, 0xff10,
  0x104a0, 0x10d30, 0x11066, 0x110f0, 0x11136, 0x111d0, 0x112f0, 0x11450, 0x114d0, 0x11650,
  0x116c0, 0x11730, 0x118e0, 0x11950, 0x11c50, 0x11d50, 0x11da0, 0x16a60, 0x16ac0, 0x16b50,
  0x1d7ce, 0x1d7d8, 0x1d7e2, 0x1d7ec, 0x1d7f6, 0x1e140, 0x1e2f0, 0x1e950, 0x1fbf0]

/-- The value of a decimal digit of any script. -/
def digit? (c : Char) : Option Nat :=
  (zeros.find? fun z => z ≤ c.toNat && c.toNat ≤ z + 9).map (c.toNat - ·)

def wideBlanks : List Nat :=
  [0x85, 0xa0, 0x1680, 0x2000, 0x2001, 0x2002, 0x2003, 0x2004, 0x2005, 0x2006, 0x2007, 0x2008,
    0x2009, 0x200a, 0x2028, 0x2029, 0x202f, 0x205f, 0x3000]

def isBlank (c : Char) : Bool :=
  c == ' ' || (0x09 ≤ c.toNat && c.toNat ≤ 0x0d) || wideBlanks.contains c.toNat

def ofDigits (ds : List Nat) : Nat := ds.foldl (fun n d => 10 * n + d) 0

/-- The digits of a run of digits and underscores, and what follows the run. Nothing if an
underscore does not stand between two digits; `between` tells that a digit came last. -/
def run? (between : Bool) : List Char → Option (List Nat × List Char)
  | [] => if between then some ([], []) else none
  | c :: cs =>
    match digit? c with
    | some d => (run? true cs).map fun (ds, rest) => (d :: ds, rest)
    | none =>
      if c = '_' then if between then run? false cs else none
      else if between then some ([], c :: cs) else none

/-- The sign at the head, and what follows it. -/
def sign : List Char → Bool × List Char
  | '+' :: cs => (false, cs)
  | '-' :: cs => (true, cs)
  | cs => (false, cs)

inductive Reading where
  | number (n : Int)
  | tooLong (digits : Nat)
  | malformed
  deriving DecidableEq

/-- Reads the whole text as an integer. The digits are counted before what follows them is looked
at. -/
def read (s : String) : Reading :=
  let (negative, body) := sign (s.toList.dropWhile isBlank)
  match run? false body with
  | none => .malformed
  | some (ds, rest) =>
    if maxDigits < ds.length then .tooLong ds.length
    else if rest.all isBlank then
      .number (if negative then -(ofDigits ds : Int) else ofDigits ds)
    else .malformed

/-- The digits of an integer and its sign; nothing if it has more than `maxDigits` digits. -/
def write? (n : Int) : Option String :=
  if n.natAbs < Nat.pow 10 maxDigits then some (toString n) else none

end ParserAlgebra.Text.Decimal
