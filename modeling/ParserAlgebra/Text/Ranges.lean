/-!
# Ranges of code points

A property of characters is a list of closed ranges of code points in increasing order, so a
search may stop at the first range that begins beyond the character.
-/

namespace ParserAlgebra.Text

def inRanges (n : Nat) : List (Nat × Nat) → Bool
  | [] => false
  | (lo, hi) :: rest => if n < lo then false else n ≤ hi || inRanges n rest

theorem exists_mem_of_inRanges {n : Nat} {rs : List (Nat × Nat)} (h : inRanges n rs = true) :
    ∃ r ∈ rs, r.1 ≤ n ∧ n ≤ r.2 := by
  induction rs with
  | nil => simp [inRanges] at h
  | cons r rest ih =>
    obtain ⟨lo, hi⟩ := r
    by_cases hlo : n < lo
    · simp [inRanges, hlo] at h
    · by_cases hhi : n ≤ hi
      · exact ⟨(lo, hi), List.mem_cons_self .., by omega, hhi⟩
      · simp only [inRanges, hlo, if_false, hhi, decide_false, Bool.false_or] at h
        obtain ⟨s, hs, hb⟩ := ih h
        exact ⟨s, List.mem_cons_of_mem _ hs, hb⟩

end ParserAlgebra.Text
