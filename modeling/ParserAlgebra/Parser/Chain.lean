import ParserAlgebra.Parser.Build

/-!
# Chains of alternatives

A chain is a choice whose left side, and whose right side when its thunk is called, are single
characters or chains again. It can be replaced by one test of membership in the set of its
characters, which rejects in the words of the last of them. A choice met twice while one chain is
collected, by its identity, ends the collecting. `n` bounds how deep chains nest.
-/

namespace ParserAlgebra.Chain

/-- The leaves of a chain of single characters, left to right, and the choices met on the way;
nothing if another kind of node turns up or a choice turns up again. -/
def leaves (call : Thunk → Run Parser) : Nat → Parser → List Nat →
    Run (Option (List Parser) × List Nat)
  | 0, _, _ => Run.exhaust
  | n + 1, p, seen =>
    match p with
    | .char .. => pure (some [p], seen)
    | .orElse id left right =>
      if seen.contains id then pure (none, seen)
      else do
        match ← leaves call n left (id :: seen) with
        | (none, seen) => pure (none, seen)
        | (some front, seen) =>
          let q ← call right
          match ← leaves call n q seen with
          | (none, seen) => pure (none, seen)
          | (some back, seen) => pure (some (front ++ back), seen)
    | .bare _ tag _ _ =>
      if tag = "char" then pure (some [p], seen)
      else if tag = "or_else" then Run.raise (.noAttribute "Parser" "left")
      else pure (none, seen)
    | _ => pure (none, seen)

/-- The character that a leaf contributes to the set of its chain, if it is one. -/
def member : Parser → Except Fault (Option Char)
  | .char _ c => .ok (some c)
  | .bare _ _ payload _ =>
    match payload with
    | .text s =>
      match s.toList with
      | [c] => .ok (some c)
      | _ => .ok none
    | v => if v.hashable then .ok none else .error .wrongType
  | _ => .ok none

def lastDescription (chars : List Parser) : Except Fault String :=
  match chars.getLast? with
  | some (.char _ c) => .ok (Parser.describe c)
  | some p => .error (.noAttribute p.className "description")
  | none => .error .outOfRange

/-- The test of membership that stands for a chain. -/
def charSet (chars : List Parser) : Run Parser := do
  let members ← Run.ofExcept (chars.mapM member)
  let description ← Run.ofExcept (lastDescription chars)
  Run.build (Build.charWhere (.memberOf (members.filterMap fun c => c)) description)

end ParserAlgebra.Chain
