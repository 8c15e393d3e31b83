import ParserAlgebra.Evaluation.Bare
import ParserAlgebra.Proofs.Reach

/-!
# Memoized nodes that are asked each time

`Parser.delaying` makes delayed nodes of the memoized nodes with certain identities, everywhere in a
parser: behind functions and thunks too. What lies below a bare node is never run and stays.
-/

namespace ParserAlgebra

mutual

/-- The parser with a delayed node for each memoized node whose identity is `lazy`. -/
def Parser.delaying (lazy : Nat → Bool) : Parser → Parser
  | .map id source fn => .map id (source.delaying lazy) fn
  | .bind id source label next =>
    .bind id (source.delaying lazy) label fun v => Parser.delayingFound lazy (next v)
  | .product id left right => .product id (left.delaying lazy) (right.delaying lazy)
  | .both id left right combine => .both id (left.delaying lazy) (right.delaying lazy) combine
  | .orElse id left right => .orElse id (left.delaying lazy) (right.delaying lazy)
  | .many id source identity combine => .many id (source.delaying lazy) identity combine
  | .manyBetween id source minimum maximum identity combine =>
    .manyBetween id (source.delaying lazy) minimum maximum identity combine
  | .collect id source minimum accumulator =>
    .collect id (source.delaying lazy) minimum accumulator
  | .delayed id thunk => .delayed id (thunk.delaying lazy)
  | .memoized id thunk =>
    if lazy id then .delayed id (thunk.delaying lazy) else .memoized id (thunk.delaying lazy)
  | .loop id label next seed =>
    .loop id label (fun v => Parser.delayingFound lazy (next v)) seed
  | .bare id tag payload children => .bare id tag payload children
  | p => p

def Thunk.delaying (lazy : Nat → Bool) : Thunk → Thunk
  | .const p => .const (p.delaying lazy)
  | .rule name => .rule name
  | .optimized cell source => .optimized cell (source.delaying lazy)

def Parser.delayingFound (lazy : Nat → Bool) : Except Fault Parser → Except Fault Parser
  | .ok p => .ok (p.delaying lazy)
  | .error f => .error f

end

def Rules.delaying (lazy : Nat → Bool) (rules : Rules) : Rules :=
  rules.map fun rule => (rule.1, rule.2.delaying lazy)

/-- No memoized node is asked each time. -/
def noNode : Nat → Bool := fun _ => false

theorem Rules.lookup_delaying (lazy : Nat → Bool) (rules : Rules) (name : String) :
    (Rules.delaying lazy rules).lookup name = (rules.lookup name).map (Parser.delaying lazy) := by
  induction rules with
  | nil => rfl
  | cons rule rules ih =>
    rw [Rules.delaying, List.map_cons, List.lookup_cons, List.lookup_cons]
    cases name == rule.1 with
    | true => rfl
    | false => exact ih

theorem Parser.unknownTag?_delaying (lazy : Nat → Bool) (p : Parser) :
    (p.delaying lazy).unknownTag? = p.unknownTag? := by
  cases p <;> try rfl
  case memoized =>
    rw [Parser.delaying]
    split <;> rfl

/-! ### Nothing asked each time -/

mutual

theorem Parser.delaying_noNode : ∀ p : Parser, p.delaying noNode = p
  | .map _ source _ => by rw [Parser.delaying, source.delaying_noNode]
  | .bind _ source _ next => by
    have hnext : (fun v => Parser.delayingFound noNode (next v)) = next :=
      funext fun v => Parser.delayingFound_noNode (next v)
    rw [Parser.delaying, source.delaying_noNode, hnext]
  | .product _ left right => by
    rw [Parser.delaying, left.delaying_noNode, right.delaying_noNode]
  | .both _ left right _ => by
    rw [Parser.delaying, left.delaying_noNode, right.delaying_noNode]
  | .orElse _ left right => by
    rw [Parser.delaying, left.delaying_noNode, right.delaying_noNode]
  | .many _ source _ _ => by rw [Parser.delaying, source.delaying_noNode]
  | .manyBetween _ source _ _ _ _ => by rw [Parser.delaying, source.delaying_noNode]
  | .collect _ source _ _ => by rw [Parser.delaying, source.delaying_noNode]
  | .delayed _ thunk => by rw [Parser.delaying, thunk.delaying_noNode]
  | .memoized _ thunk => by
    rw [Parser.delaying, thunk.delaying_noNode]
    rfl
  | .loop _ _ next _ => by
    have hnext : (fun v => Parser.delayingFound noNode (next v)) = next :=
      funext fun v => Parser.delayingFound_noNode (next v)
    rw [Parser.delaying, hnext]
  | .literal .. | .char .. | .charWhere .. | .constant .. | .identity .. | .fail .. | .bare .. =>
    rfl

theorem Thunk.delaying_noNode : ∀ t : Thunk, t.delaying noNode = t
  | .const p => by rw [Thunk.delaying, p.delaying_noNode]
  | .rule _ => rfl
  | .optimized _ source => by rw [Thunk.delaying, source.delaying_noNode]

theorem Parser.delayingFound_noNode :
    ∀ e : Except Fault Parser, Parser.delayingFound noNode e = e
  | .ok p => by rw [Parser.delayingFound, p.delaying_noNode]
  | .error _ => rfl

end

theorem Rules.delaying_noNode (rules : Rules) : Rules.delaying noNode rules = rules := by
  simp only [Rules.delaying, Parser.delaying_noNode]
  exact List.map_id' _

end ParserAlgebra
