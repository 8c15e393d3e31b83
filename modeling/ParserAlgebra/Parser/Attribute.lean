import ParserAlgebra.Parser.Build

/-!
# Attributes of nodes

Every node has a tag `t`, a payload `v` and a tuple of children `ch`. The kinds of node give names
to their payloads and children: a kind's parameters are the names that build it, in order.
-/

namespace ParserAlgebra

inductive Attribute where
  | value (v : Value)
  | node (p : Parser)
  | function (label : Label)
  | predicate (predicate : Predicate)
  | thunk (t : Thunk)
  | object (className shown : String)
  | list (items : List Attribute)
  | tuple (items : List Attribute)

namespace Parser

/-- The parameters that build a node, with what they were given. -/
def parameters : Parser → List (String × Attribute)
  | .literal _ text => [("value", .value (.text text))]
  | .char _ c => [("value", .value (.text (String.singleton c)))]
  | .charWhere _ predicate description =>
    [("predicate", .predicate predicate), ("description", .value (.text description))]
  | .constant _ value => [("value", .value value)]
  | .identity _ value => [("identity", .value value)]
  | .fail _ reason => [("reason", .value (.text reason))]
  | .map _ source fn => [("source", .node source), ("fn", .function fn.label)]
  | .bind _ source label _ => [("source", .node source), ("fn", .function label)]
  | .product _ left right => [("left", .node left), ("right", .node right)]
  | .both _ left right combine =>
    [("left", .node left), ("right", .node right), ("combine", .function combine.label)]
  | .orElse _ left right => [("left", .node left), ("right", .thunk right)]
  | .many _ source neutral combine =>
    [("source", .node source), ("identity", .value neutral),
      ("combine", .function combine.label)]
  | .manyBetween _ source minimum maximum neutral combine =>
    [("source", .node source), ("minimum", .value (.int minimum)),
      ("maximum", .value (.int maximum)), ("identity", .value neutral),
      ("combine", .function combine.label)]
  | .collect _ source minimum accumulator =>
    [("source", .node source), ("minimum", .value (.int minimum)),
      ("accumulator", .object accumulator.className accumulator.shown)]
  | .delayed _ thunk => [("thunk", .thunk thunk)]
  | .memoized _ thunk => [("thunk", .thunk thunk)]
  | .loop _ label _ seed => [("fn", .function label), ("seed", .value seed)]
  | .bare _ tag payload children =>
    [("t", .value (.text tag)), ("v", .value payload), ("ch", .tuple (children.map .node))]

def isPayload : Attribute → Bool
  | .node _ => false
  | _ => true

/-- The payload of a node: its only one, or the list of several. -/
def payload (p : Parser) : Attribute :=
  match p with
  | .bare _ _ payload _ => .value payload
  | p =>
    match (p.parameters.map Prod.snd).filter isPayload with
    | [] => .value .none
    | [a] => a
    | as => .list as

def attribute? (p : Parser) (name : String) : Except Fault Attribute :=
  match name with
  | "t" => .ok (.value (.text p.tag))
  | "v" => .ok p.payload
  | "ch" => .ok (.tuple (p.children.map .node))
  | "attrs" => .ok (.tuple (p.parameters.map fun a => .value (.text a.1)))
  | name =>
    match p, name with
    | .char _ c, "description" => .ok (.value (.text (describe c)))
    | p, name =>
      match p.parameters.lookup name with
      | some a => .ok a
      | none => .error (.noAttribute p.className name)

end Parser

def Attribute.className : Attribute → String
  | .value v => v.className
  | .node p => p.className
  | .function _ => "function"
  | .predicate _ => "function"
  | .thunk _ => "function"
  | .object className _ => className
  | .list _ => "list"
  | .tuple _ => "tuple"

def Attribute.get (a : Attribute) (name : String) : Except Fault Attribute :=
  match a with
  | .node p => p.attribute? name
  | .value (.left v) => if name = "value" then .ok (.value v) else .error (.noAttribute "Left" name)
  | .value (.right v) =>
    if name = "value" then .ok (.value v) else .error (.noAttribute "Right" name)
  | a => .error (.noAttribute a.className name)

inductive PathStep where
  | to (name : String)
  /-- What the function `right` returns. -/
  | callRight
  /-- What a memoized node is forced to. -/
  | force

end ParserAlgebra
