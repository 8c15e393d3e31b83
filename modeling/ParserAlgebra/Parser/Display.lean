import ParserAlgebra.Parser.Attribute

/-!
# Parsers written out

A node is its class with its parameters; functions stand as they are labelled.
-/

namespace ParserAlgebra

mutual

def Parser.shown : Parser → String
  | .literal _ text => "Literal(value=" ++ Text.quoted text ++ ")"
  | .char _ c => "Char(value=" ++ Text.quotedSingle c ++ ")"
  | .charWhere _ predicate description =>
    "CharWhere(predicate=" ++ predicate.label.shown ++ ", description="
      ++ Text.quoted description ++ ")"
  | .constant _ value => "Pure(value=" ++ value.shown ++ ")"
  | .identity _ value => "SucceedIdentity(identity=" ++ value.shown ++ ")"
  | .fail _ reason => "Fail(reason=" ++ Text.quoted reason ++ ")"
  | .map _ source fn => "Map(source=" ++ source.shown ++ ", fn=" ++ fn.label.shown ++ ")"
  | .bind _ source label _ => "Bind(source=" ++ source.shown ++ ", fn=" ++ label.shown ++ ")"
  | .product _ left right => "Product(left=" ++ left.shown ++ ", right=" ++ right.shown ++ ")"
  | .both _ left right combine =>
    "And(left=" ++ left.shown ++ ", right=" ++ right.shown ++ ", combine="
      ++ combine.label.shown ++ ")"
  | .orElse _ left right => "OrElse(left=" ++ left.shown ++ ", right=" ++ right.label.shown ++ ")"
  | .many _ source neutral combine =>
    "Repeat(source=" ++ source.shown ++ ", identity=" ++ neutral.shown ++ ", combine="
      ++ combine.label.shown ++ ")"
  | .manyBetween _ source minimum maximum neutral combine =>
    "RepeatBetween(source=" ++ source.shown ++ ", minimum=" ++ toString minimum ++ ", maximum="
      ++ toString maximum ++ ", identity=" ++ neutral.shown ++ ", combine="
      ++ combine.label.shown ++ ")"
  | .collect _ source minimum accumulator =>
    "RepeatAccumulator(source=" ++ source.shown ++ ", minimum=" ++ toString minimum
      ++ ", accumulator=" ++ accumulator.shown ++ ")"
  | .delayed _ thunk => "Delayed(thunk=" ++ thunk.label.shown ++ ")"
  | .memoized _ thunk => "Memoized(thunk=" ++ thunk.label.shown ++ ")"
  | .loop _ label _ seed => "RecursiveBind(fn=" ++ label.shown ++ ", seed=" ++ seed.shown ++ ")"
  | .bare _ tag payload children =>
    "Parser(t=" ++ Text.quoted tag ++ ", v=" ++ payload.shown ++ ", ch="
      ++ bracketed true (Parser.shownAll children) ++ ")"

def Parser.shownAll : List Parser → List String
  | [] => []
  | p :: ps => p.shown :: Parser.shownAll ps

end

end ParserAlgebra
