import ParserAlgebra.Proofs.Optimizer.Again
import ParserAlgebra.Proofs.Offset
import ParserAlgebra.Proofs.Position
import ParserAlgebra.Proofs.Shown

/-!
# The lines of an outline

An outline has a line for each node of the strict tree, in preorder, and one for the right side of
each choice, behind the lines of its left side. Texts and values are written out on one line, but
the description of a test and the names of functions stand as they are. So the lines of a dump are
those of the outline exactly if no description and no name in the strict tree holds a line feed.
-/

namespace ParserAlgebra

open Text (OneLine oneLine_append)

/-! ### Lines of a text -/

theorem Parser.sizeOf_child {p q : Parser} (h : q ∈ p.children) : sizeOf q < sizeOf p := by
  cases p <;> simp only [Parser.children, List.not_mem_nil, List.mem_singleton, List.mem_pair] at h
  case product | both => rcases h with rfl | rfl <;> simp <;> omega
  case bare =>
    have hmem := List.sizeOf_lt_of_mem h
    simp
    omega
  all_goals
    subst h
    simp
    omega

/-- What a line of an outline is for. -/
inductive Entry where
  | node (p : Parser)
  /-- The right side of a choice, which is not asked for. -/
  | lazy

/-- The nodes of the strict tree in preorder, each with its depth, and behind the nodes on the left
of a choice an entry for its right side. -/
def Parser.entries (p : Parser) (depth : Nat) : List (Nat × Entry) :=
  (depth, .node p) :: (p.children.attach.flatMap fun ⟨q, _⟩ => q.entries (depth + 1)) ++
    if p.tag = "or_else" then [(depth + 1, .lazy)] else []
termination_by p
decreasing_by exact Parser.sizeOf_child ‹_›

/-- The text of a line, without its indentation. -/
def Entry.text : Entry → Except Fault String
  | .node p => p.lineText
  | .lazy => .ok "<lazy>"

/-! ### Texts of lines -/

/-- The characters of an entry's line: its indentation, and behind it its text. -/
def Entry.Dumps (indent : String) (entry : Nat × Entry) (line : List Char) : Prop :=
  ∃ text, entry.2.text = .ok text ∧
    line = (List.replicate entry.1 indent.toList).flatten ++ text.toList

theorem Entry.Dumps.unique {indent : String} {entry : Nat × Entry} {line line' : List Char}
    (h : Entry.Dumps indent entry line) (h' : Entry.Dumps indent entry line') : line = line' := by
  obtain ⟨text, htext, rfl⟩ := h
  obtain ⟨text', htext', rfl⟩ := h'
  cases htext.symm.trans htext'
  rfl

end ParserAlgebra
