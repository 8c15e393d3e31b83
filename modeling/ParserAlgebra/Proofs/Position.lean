import Mathlib
import ParserAlgebra.Result

/-!
# Where an offset lies

What stands before an offset is lines, each with the line feed that ends it, and the part of one
more line. So the line of an offset counts the lines before it, its column counts the characters
before it on its own line, and the two give the offset back. Offsets further on lie further on in
lines and columns.
-/

namespace ParserAlgebra

namespace Text

/-! ### Lines -/

/-- Lines with a line feed behind each. -/
def ended (lines : List (List Char)) : List Char := lines.flatMap (· ++ ['\n'])

theorem ended_cons (line : List Char) (lines : List (List Char)) (rest : List Char) :
    ended (line :: lines) ++ rest = line ++ '\n' :: (ended lines ++ rest) := by
  simp [ended]

theorem length_ended (lines : List (List Char)) :
    (ended lines).length = (lines.map fun line => line.length + 1).sum := by
  simp [ended, List.length_flatMap]

theorem splitOn_ended {lines : List (List Char)} (h : ∀ line ∈ lines, '\n' ∉ line)
    (rest : List Char) :
    (ended lines ++ rest).splitOn '\n' = lines ++ rest.splitOn '\n' := by
  induction lines with
  | nil => rfl
  | cons line lines ih =>
    rw [ended_cons, List.splitOn_append_cons_self_of_not_mem (h line (.head _)),
      ih fun l hl => h l (.tail _ hl), List.cons_append]

theorem count_ended {lines : List (List Char)} (h : ∀ line ∈ lines, '\n' ∉ line) :
    (ended lines).count '\n' = lines.length := by
  induction lines with
  | nil => rfl
  | cons line lines ih =>
    have hline : line.count '\n' = 0 := List.count_eq_zero.2 (h line (.head _))
    rw [← List.append_nil (ended _), ended_cons, List.append_nil, List.count_append, hline,
      List.count_cons_self, ih fun l hl => h l (.tail _ hl), List.length_cons, Nat.zero_add]

/-- Every text is ended lines and a last one that is not ended. -/
theorem exists_ended (cs : List Char) : ∃ lines front, (∀ line ∈ lines, '\n' ∉ line) ∧
    '\n' ∉ front ∧ cs = ended lines ++ front := by
  induction cs with
  | nil => exact ⟨[], [], nofun, nofun, rfl⟩
  | cons c cs ih =>
    obtain ⟨lines, front, hlines, hfront, rfl⟩ := ih
    by_cases hc : c = '\n'
    · subst hc
      refine ⟨[] :: lines, front, ?_, hfront, by rw [ended_cons, List.nil_append]⟩
      simpa using hlines
    · cases lines with
      | nil => exact ⟨[], c :: front, nofun, by simp [hfront, Ne.symm hc], rfl⟩
      | cons line lines =>
        refine ⟨(c :: line) :: lines, front, ?_, hfront, by simp [ended]⟩
        simp only [List.forall_mem_cons] at hlines ⊢
        exact ⟨by simp [hlines.1, Ne.symm hc], hlines.2⟩

theorem head_splitOn {front : List Char} (h : '\n' ∉ front) (rest : List Char) :
    ∃ back lines, (front ++ rest).splitOn '\n' = (front ++ back) :: lines := by
  induction front with
  | nil =>
    obtain ⟨back, lines, hsplit⟩ := List.exists_cons_of_ne_nil (List.splitOn_ne_nil '\n' rest)
    exact ⟨back, lines, hsplit⟩
  | cons c front ih =>
    obtain ⟨back, lines, hsplit⟩ := ih (List.not_mem_of_not_mem_cons h)
    have hc : (c == '\n') = false := beq_eq_false_iff_ne.2 fun he => h (he ▸ .head _)
    refine ⟨back, lines, ?_⟩
    rw [List.cons_append, List.splitOn_cons_eq_if_modifyHead, hc, if_neg Bool.false_ne_true, hsplit]
    rfl

/-! ### Offsets -/

theorem getLast?_ended (lines : List (List Char)) : ∀ c ∈ (ended lines).getLast?, c = '\n' := by
  cases lines using List.reverseRecOn with
  | nil => exact nofun
  | append_singleton lines line => simp [ended, eq_comm]

/-- What is behind the last line feed of ended lines and a last one. -/
theorem takeWhile_ended {front : List Char} (h : '\n' ∉ front) (lines : List (List Char)) :
    (ended lines ++ front).reverse.takeWhile (· != '\n') = front.reverse := by
  have hfront : ∀ c ∈ front.reverse, (c != '\n') = true := fun c hc =>
    bne_iff_ne.2 fun he => h (he ▸ List.mem_reverse.1 hc)
  have hlast := getLast?_ended lines
  rw [← List.head?_reverse] at hlast
  rw [List.reverse_append, List.takeWhile_append_of_pos hfront]
  cases hends : (ended lines).reverse with
  | nil => rw [List.takeWhile_nil, List.append_nil]
  | cons d ds =>
    rw [hends] at hlast
    rw [hlast d rfl, List.takeWhile_cons, if_neg (by decide), List.append_nil]

section

variable {cs front : List Char} {start : Nat} {lines : List (List Char)}
  (hlines : ∀ line ∈ lines, '\n' ∉ line) (hfront : '\n' ∉ front)
  (htake : cs.take start = ended lines ++ front)
include hlines hfront htake

theorem lineAt_eq : lineAt cs start = lines.length + 1 := by
  rw [lineAt, htake, List.count_append, count_ended hlines, List.count_eq_zero.2 hfront]

omit hlines in
theorem columnAt_eq (hstart : start ≤ cs.length) : columnAt cs start = front.length + 1 := by
  have hlen := congrArg List.length htake
  rw [List.length_take, List.length_append] at hlen
  rw [columnAt, lineStart, htake, takeWhile_ended hfront, List.length_append, List.length_reverse]
  omega

end

end Text

/-! ### Failures -/

/-- The line and the column, and the lines of the text, give the offset. -/
structure Text.Locates (lines : List (List Char)) (line column start : Nat) : Prop where
  line_pos : 1 ≤ line
  line_le : line ≤ lines.length
  column_pos : 1 ≤ column
  column_le : ∃ own, lines[line - 1]? = some own ∧ column ≤ own.length + 1
  start_eq : start = ((lines.take (line - 1)).map fun l => l.length + 1).sum + (column - 1)

theorem Text.locates {cs : List Char} {start : Nat} (h : start ≤ cs.length) :
    Locates (cs.splitOn '\n') (lineAt cs start) (columnAt cs start) start := by
  obtain ⟨lines, front, hlines, hfront, htake⟩ := exists_ended (cs.take start)
  obtain ⟨back, later, hsplit⟩ := head_splitOn hfront (cs.drop start)
  have hlen := congrArg List.length htake
  rw [List.length_take, Nat.min_eq_left h, List.length_append, length_ended] at hlen
  have hall : cs.splitOn '\n' = lines ++ (front ++ back) :: later := by
    rw [← hsplit, ← splitOn_ended hlines, ← List.append_assoc, ← htake, List.take_append_drop]
  rw [hall, lineAt_eq hlines hfront htake, columnAt_eq hfront htake h]
  refine ⟨by omega, by simp, by omega, ⟨front ++ back, by simp, by simp⟩, ?_⟩
  simpa using hlen

theorem Text.lineAt_mono {cs : List Char} {start start' : Nat} (h : start ≤ start') :
    lineAt cs start ≤ lineAt cs start' := by
  have hsub : (cs.take start).Sublist (cs.take start') := (List.take_prefix_take_left h).sublist
  exact Nat.succ_le_succ (hsub.count_le '\n')

theorem Text.Locates.before {lines : List (List Char)}
    {line line' column column' start start' : Nat}
    (h : Locates lines line column start) (h' : Locates lines line' column' start')
    (hle : line ≤ line') (hlt : start < start') :
    Prod.Lex (· < ·) (· < ·) (line, column) (line', column') := by
  rcases Nat.lt_or_eq_of_le hle with hline | rfl
  · exact .left _ _ hline
  · -- On one line the same lines stand before both, so the columns differ as the offsets do.
    have hstart := h.start_eq
    have hstart' := h'.start_eq
    have hpos := h.column_pos
    refine .right _ ?_
    omega

/-- A failure inside its text is located by its line and its column: they are a line and a column of
the text and give the offset back. A failure further on lies on a later line, or on the same line
in a later column. -/
theorem Result.position_locates {r : Result} {why : Reason} {start : Nat}
    (hr : r.reply = .reject why start) (h : start ≤ r.input.length) :
    Text.Locates (r.input.toList.splitOn '\n') r.line r.column start ∧
    ∀ (r' : Result) (why' : Reason) (start' : Nat), r'.input = r.input →
      r'.reply = .reject why' start' → start < start' → start' ≤ r.input.length →
      Prod.Lex (· < ·) (· < ·) (r.line, r.column) (r'.line, r'.column) := by
  have hposition : ∀ {r : Result} {why start}, r.reply = .reject why start →
      r.line = Text.lineAt r.input.toList start ∧ r.column = Text.columnAt r.input.toList start :=
    fun hr => by simp only [line, column, offset, hr, and_self]
  obtain ⟨hline, hcolumn⟩ := hposition hr
  rw [← String.length_toList] at h ⊢
  rw [hline, hcolumn]
  refine ⟨Text.locates h, fun r' why' start' hinput hr' hlt h' => ?_⟩
  obtain ⟨hline', hcolumn'⟩ := hposition hr'
  rw [hline', hcolumn', hinput]
  exact (Text.locates h).before (Text.locates h') (Text.lineAt_mono (Nat.le_of_lt hlt)) hlt

def emptyLine : Result := ⟨"one\n\ntwo\n", .reject (.stated "no line") 4⟩

/-- The second line is empty; the end of the text is on a line of its own. -/
theorem emptyLine_located : emptyLine.reply = .reject (.stated "no line") 4 ∧
    4 ≤ emptyLine.input.length ∧
    Text.Locates ["one".toList, [], "two".toList, []] 2 1 4 ∧
    Prod.Lex (· < ·) (· < ·) (2, 1) (4, 1) := by
  have hlength : emptyLine.input.length = 9 := by decide
  have hstart : 4 ≤ emptyLine.input.length := by rw [hlength]; decide
  obtain ⟨hlocates, hbefore⟩ := Result.position_locates (r := emptyLine) rfl hstart
  exact ⟨rfl, hstart, hlocates, hbefore ⟨emptyLine.input, .reject (.stated "no line") 9⟩ _ 9 rfl rfl
    (by decide) (Nat.le_of_eq hlength.symm)⟩

end ParserAlgebra
