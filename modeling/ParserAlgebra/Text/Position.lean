/-!
# Lines and columns

Lines end at a line feed only. Lines and columns count from one, offsets from zero, and all count
characters. An offset beyond the end lies on the last line.
-/

namespace ParserAlgebra.Text

/-- The line of an offset: one more than the line feeds before it. -/
def lineAt (cs : List Char) (start : Nat) : Nat := (cs.take start).count '\n' + 1

def lineStart (cs : List Char) (start : Nat) : Nat :=
  let before := cs.take start
  before.length - (before.reverse.takeWhile (· != '\n')).length

/-- The column of an offset: its distance from the beginning of its line, plus one. -/
def columnAt (cs : List Char) (start : Nat) : Nat := start - lineStart cs start + 1

/-- The offset of the last line feed of a text. -/
def lastFeed? : List Char → Option Nat
  | [] => none
  | c :: cs =>
    match lastFeed? cs with
    | some i => some (i + 1)
    | none => if c = '\n' then some 0 else none

/-- How far an offset is behind the last line feed before it. On the first line there is none, and
the distance is that from a line feed in front of the text. -/
def feedDistance (cs : List Char) (start : Nat) : Nat :=
  match lastFeed? (cs.take start) with
  | some i => start - i
  | none => start + 1

theorem lineAt_pos (cs : List Char) (start : Nat) : 1 ≤ lineAt cs start := by
  simp [lineAt]

theorem lineStart_le (cs : List Char) (start : Nat) : lineStart cs start ≤ start := by
  simp only [lineStart, List.length_take]
  omega

theorem lastFeed?_concat (cs : List Char) (c : Char) :
    lastFeed? (cs ++ [c]) = if c = '\n' then some cs.length else lastFeed? cs := by
  induction cs with
  | nil => rfl
  | cons d cs ih =>
    rw [List.cons_append, lastFeed?, ih]
    by_cases hc : c = '\n' <;> simp [hc, lastFeed?]

theorem lastFeed?_lt {cs : List Char} {i : Nat} (h : lastFeed? cs = some i) : i < cs.length := by
  induction cs generalizing i with
  | nil => cases h
  | cons c cs ih =>
    rw [lastFeed?] at h
    cases hcs : lastFeed? cs with
    | some j =>
      simp only [hcs, Option.some.injEq] at h
      have := ih hcs
      rw [List.length_cons]
      omega
    | none =>
      simp only [hcs] at h
      split at h
      · cases h
        exact Nat.succ_pos _
      · cases h

end ParserAlgebra.Text
