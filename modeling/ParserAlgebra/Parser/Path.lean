import ParserAlgebra.Parser.Attribute
import ParserAlgebra.Parser.Optimized

/-!
# Walking from node to node

A path leads from a node through its attributes, and on through the parsers that thunks give.
-/

namespace ParserAlgebra

/-- What lies one step on. A step through a thunk calls it. -/
def Attribute.follow (rules : Rules) (depth : Nat) (a : Attribute) : PathStep → Run Attribute
  | .to name => Run.ofExcept (a.get name)
  | .callRight => do
    match ← Run.ofExcept (a.get "right") with
    | .thunk t => return .node (← t.call rules depth)
    | _ => Run.raise .wrongType
  | .force =>
    match a with
    | .node (.memoized id t) => do return .node (← Run.once (.node id) (t.call rules depth))
    | a => Run.raise (.noAttribute a.className "force")

def Attribute.walk (rules : Rules) (depth : Nat) : Attribute → List PathStep → Run Attribute
  | a, [] => pure a
  | a, next :: path => do
    let b ← a.follow rules depth next
    walk rules depth b path

def Attribute.predicate? (a : Attribute) : Except Fault Predicate := do
  match ← a.get "predicate" with
  | .predicate p => .ok p
  | _ => .error .wrongType

end ParserAlgebra
