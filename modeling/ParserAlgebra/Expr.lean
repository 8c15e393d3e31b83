/-!
# Arithmetic expressions

The trees of sums and products over integers and names.
-/

namespace ParserAlgebra

inductive Expr where
  | lit (value : Int)
  | var (name : String)
  | add (left right : Expr)
  | mul (left right : Expr)
  deriving DecidableEq, Inhabited

namespace Expr

def size : Expr → Nat
  | .lit _ => 1
  | .var _ => 1
  | .add l r => l.size + r.size + 1
  | .mul l r => l.size + r.size + 1

theorem size_pos (e : Expr) : 0 < e.size := by
  cases e <;> simp [size]

end Expr

end ParserAlgebra
