import ParserAlgebra.Proofs.Script.Trials

/-!
# The greedy loop

Repetitions that join the values of their source and those that collect them go through one loop.
It takes the strides of the source, each of which consumes something, tries the source once more,
and ends, since there are no more strides than characters.
-/

namespace ParserAlgebra

open Run (Yields)
open ParserAlgebra.Parser (Kinded)

section

variable {cx : Context} {p : Parser} {i : Nat} {m : Memory} {c : Cells} {ms : List (Value × Nat)}

/-- A repetition that joins values accepts behind the last stride. -/
theorem Strides.many_replies (h : Strides cx p i m.cells ms c) (hp : p.Kinded cx.rules)
    (hm : m.Holds (Kinded cx.rules)) (hi : i ≤ cx.text.size) {f : Fold} {value : Value}
    (hfold : (valuesOf ms).foldlM f.combine.apply f.identity = .ok value) (id : Nat) :
    (Build.result id (Build.many p f)).RepliesAfter cx p i m (.accept value (lastStop i ms))
      (starts i ms) c := by
  have hbudget : cx.text.size - i < budgetAt cx.text i := by unfold budgetAt; omega
  have hloop := h.tries hp hm hi hfold hbudget
  refine Parser.Tries.repliesAfter rfl (.of_cells ?_)
  exact listed_reply hloop fun k => rfl

end

end ParserAlgebra
