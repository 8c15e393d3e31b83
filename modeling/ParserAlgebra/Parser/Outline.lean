import ParserAlgebra.Parser

/-!
# Outlines

A parser as lines of text: one for each node of the strict tree in preorder, indented by its depth,
and one more after the left side of each choice for the right side, which is not asked for.
-/

namespace ParserAlgebra

structure OutlineLine where
  depth : Nat
  text : String
  deriving DecidableEq

namespace Parser

/-- The line of a bare node whose tag is that of a kind of node: a literal or a character shows its
payload, the kinds without parameters show their tag, and the others ask for a missing one. -/
def bareLine (tag : String) (payload : Value) : Except Fault String :=
  let missing (name : String) : Except Fault String := .error (.noAttribute "Parser" name)
  match tag with
  | "literal" => .ok ("literal " ++ payload.shown)
  | "char" => .ok ("char " ++ payload.shown)
  | "delayed" => .ok "delayed <lazy>"
  | "memoized" => .ok "memoized <lazy>"
  | "or_else" => .ok "or_else"
  | "product" => .ok "product"
  | "and" => missing "combine"
  | "bind" => missing "fn"
  | "map" => missing "fn"
  | "recursive_bind" => missing "fn"
  | "char_where" => missing "description"
  | "fail" => missing "reason"
  | "identity" => missing "identity"
  | "repeat" => missing "identity"
  | "pure" => missing "value"
  | "repeat_accumulator" => missing "minimum"
  | "repeat_between" => missing "minimum"
  | tag => .error (.noAttribute "Printer" ("_ty_" ++ tag))

def lineText : Parser → Except Fault String
  | .literal _ text => .ok ("literal " ++ Text.quoted text)
  | .char _ c => .ok ("char " ++ Text.quotedSingle c)
  | .charWhere _ _ description => .ok ("char_where " ++ description)
  | .constant _ value => .ok ("pure " ++ value.shown)
  | .identity _ value => .ok ("identity " ++ value.shown)
  | .fail _ reason => .ok ("fail " ++ Text.quoted reason)
  | .map _ _ fn => .ok ("map " ++ fn.label.name)
  | .bind _ _ label _ => .ok ("bind " ++ label.name)
  | .product .. => .ok "product"
  | .both _ _ _ combine => .ok ("and " ++ combine.label.name)
  | .orElse .. => .ok "or_else"
  | .many _ _ neutral _ => .ok ("repeat identity=" ++ neutral.shown)
  | .manyBetween _ _ minimum maximum _ _ =>
    .ok ("repeat_between " ++ toString minimum ++ ".." ++ toString maximum)
  | .collect _ _ minimum accumulator =>
    .ok ("repeat_accumulator minimum=" ++ toString minimum ++ " " ++ accumulator.className)
  | .delayed .. => .ok "delayed <lazy>"
  | .memoized .. => .ok "memoized <lazy>"
  | .loop _ label _ seed => .ok ("recursive_bind " ++ label.name ++ " seed=" ++ seed.shown)
  | .bare _ tag payload _ => bareLine tag payload

/-- The line that stands for the right side of a choice. -/
def lazyLines (p : Parser) (depth : Nat) : List OutlineLine :=
  if p.tag = "or_else" then [⟨depth, "<lazy>"⟩] else []

mutual

def outline (p : Parser) (depth : Nat) : Except Fault (List OutlineLine) := do
  let head ← p.lineText
  let below ← match p with
    | .map _ source _ => outline source (depth + 1)
    | .bind _ source _ _ => outline source (depth + 1)
    | .product _ left right => do
      let first ← outline left (depth + 1)
      let second ← outline right (depth + 1)
      pure (first ++ second)
    | .both _ left right _ => do
      let first ← outline left (depth + 1)
      let second ← outline right (depth + 1)
      pure (first ++ second)
    | .orElse _ left _ => outline left (depth + 1)
    | .many _ source _ _ => outline source (depth + 1)
    | .manyBetween _ source _ _ _ _ => outline source (depth + 1)
    | .collect _ source _ _ => outline source (depth + 1)
    | .bare _ _ _ children => outlineAll children (depth + 1)
    | _ => .ok []
  pure (⟨depth, head⟩ :: below ++ p.lazyLines (depth + 1))

def outlineAll (ps : List Parser) (depth : Nat) : Except Fault (List OutlineLine) := do
  match ps with
  | [] => pure []
  | p :: ps =>
    let first ← outline p depth
    let second ← outlineAll ps depth
    pure (first ++ second)

end

/-- The text of an outline, each line under its indentation and ended by a line feed. -/
def dump (p : Parser) (indent : String) : Except Fault String := do
  let lines ← p.outline 0
  let texts := lines.map fun line =>
    String.join (List.replicate line.depth indent) ++ line.text
  pure (String.intercalate "\n" texts ++ "\n")

end Parser

end ParserAlgebra
