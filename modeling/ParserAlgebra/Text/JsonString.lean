import ParserAlgebra.Text.Quoted

/-!
# JSON strings

Text between double quotes with the escapes of JSON. `JsonString.ascii` keeps the printable ASCII
characters only and writes all others by their UTF-16 units; `JsonString.plain` escapes the quote,
the backslash and the control characters below U+0020, and keeps the rest.
-/

namespace ParserAlgebra.Text.JsonString

def short? (c : Char) : Option Char :=
  if c = '\x22' then some '\x22'
  else if c = '\\' then some '\\'
  else if c = '\n' then some 'n'
  else if c = '\r' then some 'r'
  else if c = '\t' then some 't'
  else if c = '\x08' then some 'b'
  else if c = '\x0c' then some 'f'
  else none

def unit (n : Nat) : List Char := '\\' :: 'u' :: hexDigits 4 n

/-- A character written by its UTF-16 units: one, or a surrogate pair beyond U+FFFF. -/
def units (c : Char) : List Char :=
  if c.toNat < 0x10000 then unit c.toNat
  else unit (0xd800 + (c.toNat - 0x10000) / 0x400) ++ unit (0xdc00 + (c.toNat - 0x10000) % 0x400)

def asciiChar (c : Char) : List Char :=
  match short? c with
  | some e => ['\\', e]
  | none => if 0x20 ≤ c.toNat ∧ c.toNat ≤ 0x7e then [c] else units c

/-- One character of a string that keeps what JSON lets stand. -/
def plainChar (c : Char) : List Char :=
  match short? c with
  | some e => ['\\', e]
  | none => if 0x20 ≤ c.toNat then [c] else units c

def ascii (s : String) : String :=
  String.ofList ('\x22' :: s.toList.flatMap asciiChar ++ ['\x22'])

def plain (s : String) : String :=
  String.ofList ('\x22' :: s.toList.flatMap plainChar ++ ['\x22'])

end ParserAlgebra.Text.JsonString
