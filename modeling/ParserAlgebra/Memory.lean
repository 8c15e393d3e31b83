import ParserAlgebra.Parser

/-!
# What a run remembers

Parsers do not change while they run, but a run leaves traces: the calls of each rule's thunk, the
parser that each memoized node was forced to and each right side was optimized to, the log, and the
next free identity.
-/

namespace ParserAlgebra

inductive LogEntry where
  | trying (tag : String) (index : Nat)
  | failed (tag : String) (start : Nat) (reason : Reason)
  deriving DecidableEq

def LogEntry.text : LogEntry → String
  | .trying tag index => "trying " ++ tag ++ " at " ++ toString index
  | .failed tag start reason =>
    tag ++ " failed at " ++ toString start ++ ": " ++ reason.text

/-- A place for a parser that is asked for once. -/
inductive Cell where
  | node (id : Nat)
  /-- The place of a right side that is optimized when it is asked for. -/
  | right (number : Nat)
  deriving DecidableEq

/-- What a run remembers. The log stands last entry first. -/
structure Memory where
  nextId : Nat := 0
  filled : List (Cell × Parser) := []
  calls : List (String × Nat) := []
  log : List LogEntry := []

namespace Memory

def parserIn? (m : Memory) (cell : Cell) : Option Parser := m.filled.lookup cell

def fill (m : Memory) (cell : Cell) (p : Parser) : Memory :=
  { m with filled := (cell, p) :: m.filled }

theorem parserIn?_fill (m : Memory) (cell : Cell) (p : Parser) :
    (m.fill cell p).parserIn? cell = some p := by
  simp [parserIn?, fill]

theorem parserIn?_fill_of_ne (m : Memory) {cell other : Cell} (p : Parser) (h : other ≠ cell) :
    (m.fill cell p).parserIn? other = m.parserIn? other := by
  have hb : (other == cell) = false := beq_eq_false_iff_ne.2 h
  simp [parserIn?, fill, List.lookup_cons, hb]

/-- A list of counters with one of them raised by one; a new counter begins at one. -/
def raiseCount (name : String) : List (String × Nat) → List (String × Nat)
  | [] => [(name, 1)]
  | (other, n) :: rest =>
    if other = name then (other, n + 1) :: rest else (other, n) :: raiseCount name rest

def callsOf (m : Memory) (name : String) : Nat := (m.calls.lookup name).getD 0

def countCall (m : Memory) (name : String) : Memory :=
  { m with calls := raiseCount name m.calls }

theorem lookup_raiseCount (name : String) (counts : List (String × Nat)) :
    (raiseCount name counts).lookup name = some ((counts.lookup name).getD 0 + 1) := by
  induction counts with
  | nil => simp [raiseCount]
  | cons c rest ih =>
    obtain ⟨other, n⟩ := c
    by_cases h : other = name
    · simp [raiseCount, h]
    · have hb : (name == other) = false := beq_eq_false_iff_ne.2 fun e => h e.symm
      simp [raiseCount, h, List.lookup_cons, hb, ih]

theorem lookup_raiseCount_of_ne {name other : String} (h : other ≠ name)
    (counts : List (String × Nat)) :
    (raiseCount name counts).lookup other = counts.lookup other := by
  have hb : (other == name) = false := beq_eq_false_iff_ne.2 h
  induction counts with
  | nil => simp [raiseCount, List.lookup_cons, hb]
  | cons c rest ih =>
    obtain ⟨third, n⟩ := c
    by_cases hn : third = name
    · subst hn
      simp [raiseCount, List.lookup_cons, hb]
    · simp [raiseCount, hn, List.lookup_cons, ih]

theorem callsOf_countCall (m : Memory) (name : String) :
    (m.countCall name).callsOf name = m.callsOf name + 1 := by
  simp [callsOf, countCall, lookup_raiseCount]

theorem callsOf_countCall_of_ne (m : Memory) {name other : String} (h : other ≠ name) :
    (m.countCall name).callsOf other = m.callsOf other := by
  simp [callsOf, countCall, lookup_raiseCount_of_ne h]

def write (m : Memory) (entry : LogEntry) : Memory := { m with log := entry :: m.log }

end Memory

end ParserAlgebra
