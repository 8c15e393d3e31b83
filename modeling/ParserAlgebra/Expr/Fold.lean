import ParserAlgebra.Fault
import ParserAlgebra.Json

/-!
# Folding expressions

Expressions may be deep, so they are folded with an explicit stack of what is still to be visited
and a stack of the values found. A sum or product is met twice: the first time its parts are put
before it, the second time their values are on the other stack.
-/

namespace ParserAlgebra.Expr

inductive Op where
  | add
  | mul
  deriving DecidableEq

def Op.apply : Op → Int → Int → Int
  | .add, m, n => m + n
  | .mul, m, n => m * n

def Op.tag : Op → String
  | .add => "add"
  | .mul => "mul"

def branch? : Expr → Option (Op × Expr × Expr)
  | .add l r => some (.add, l, r)
  | .mul l r => some (.mul, l, r)
  | _ => none

theorem size_eq_of_branch {e l r : Expr} {op : Op} (h : e.branch? = some (op, l, r)) :
    e.size = l.size + r.size + 1 := by
  cases e <;> simp_all [branch?, size]

/-- The visits that a stack still asks for. -/
def visits : List (Expr × Bool) → Nat
  | [] => 0
  | (e, visited) :: rest => (if visited then 1 else 2 * e.size) + visits rest

/-- Works a stack off; a flag tells that the parts of an entry were visited. -/
def foldLoop {α : Type} (leaf : Expr → Except Fault α) (join : Op → α → α → α) :
    List (Expr × Bool) → List α → Except Fault (List α)
  | [], values => .ok values
  | (e, visited) :: rest, values =>
    match _h : e.branch? with
    | none =>
      match leaf e with
      | .error f => .error f
      | .ok v => foldLoop leaf join rest (v :: values)
    | some (op, l, r) =>
      if visited then
        match values with
        | right :: left :: values => foldLoop leaf join rest (join op left right :: values)
        | _ => .error .outOfRange
      else foldLoop leaf join ((l, false) :: (r, false) :: (e, true) :: rest) values
termination_by stack _ => visits stack
decreasing_by
  · have := e.size_pos
    simp only [visits]
    split <;> omega
  · simp_all [visits]
  · have := size_eq_of_branch ‹_›
    simp_all [visits]
    omega

/-- The fold of a tree: `leaf` gives the values of its leaves, from left to right, and `join` those
of sums and products. -/
def fold {α : Type} (leaf : Expr → Except Fault α) (join : Op → α → α → α) (e : Expr) :
    Except Fault α := do
  match ← foldLoop leaf join [(e, false)] [] with
  | [v] => .ok v
  | _ => .error .outOfRange

/-- The value of a leaf. Of two bindings of one name the first counts. -/
def leafValue (env : List (String × Int)) : Expr → Except Fault Int
  | .lit n => .ok n
  | .var x =>
    match env.lookup x with
    | some n => .ok n
    | none => .error (.unbound x)
  | _ => .error .wrongType

def evaluate (env : List (String × Int)) (e : Expr) : Except Fault Int :=
  e.fold (leafValue env) Op.apply

def leafJson : Expr → Except Fault Json
  | .lit n => .ok (.array [.text "lit", .number n])
  | .var x => .ok (.array [.text "var", .text x])
  | _ => .error .wrongType

/-- An expression as a document: each node is its tag with its parts. -/
def toJson (e : Expr) : Except Fault Json :=
  e.fold leafJson fun op l r => .array [.text op.tag, l, r]

end ParserAlgebra.Expr
