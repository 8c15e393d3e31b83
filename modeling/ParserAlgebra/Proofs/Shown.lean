import ParserAlgebra.Value

/-!
# What is written out stands on one line

Quoting escapes line feeds, and all else that a value is written with is digits, quotes, brackets
and names. So a value written out holds no line feed, whatever texts are in it.
-/

namespace ParserAlgebra

namespace Text

/-- No line feed stands in the text. -/
def OneLine (s : String) : Prop := '\n' ∉ s.toList

instance (s : String) : Decidable (OneLine s) := inferInstanceAs (Decidable ('\n' ∉ s.toList))

theorem oneLine_append {s t : String} : OneLine (s ++ t) ↔ OneLine s ∧ OneLine t := by
  simp only [OneLine, String.toList_append, List.mem_append, not_or]

theorem oneLine_intercalate {sep : String} {items : List String} (hsep : OneLine sep)
    (h : ∀ s ∈ items, OneLine s) : OneLine (sep.intercalate items) := by
  rw [OneLine, String.toList_intercalate]
  induction items with
  | nil => exact List.not_mem_nil
  | cons s items ih =>
    have hs := h s List.mem_cons_self
    have hitems := ih fun t ht => h t (.tail _ ht)
    cases items with
    | nil =>
      rw [List.map_singleton, List.intercalate_singleton]
      exact hs
    | cons t items =>
      rw [List.map_cons, List.map_cons, List.intercalate_cons_cons, List.mem_append,
        List.mem_append, not_or, not_or]
      exact ⟨⟨hs, hsep⟩, hitems⟩

theorem toList_ofNat (n : Nat) : (toString (Int.ofNat n)).toList = Nat.toDigits 10 n :=
  Nat.toList_repr

theorem toList_negSucc (n : Nat) :
    (toString (Int.negSucc n)).toList = '-' :: Nat.toDigits 10 (n + 1) := by
  rw [← Nat.toList_repr]
  exact String.toList_append

theorem oneLine_int (n : Int) : OneLine (toString n) := by
  have hdigits : ∀ n, '\n' ∉ Nat.toDigits 10 n := by
    intro n h
    have hdigit := Nat.isDigit_of_mem_toDigits (by decide) (by decide) h
    cases hdigit
  cases n with
  | ofNat n =>
    rw [OneLine, toList_ofNat]
    exact hdigits n
  | negSucc n =>
    rw [OneLine, toList_negSucc]
    exact List.not_mem_cons_of_ne_of_not_mem (by decide) (hdigits (n + 1))

theorem feed_notMem_hexDigits (width n : Nat) : '\n' ∉ hexDigits width n := by
  have hdigit : ∀ d < 16, Nat.digitChar d ≠ '\n' := by decide
  induction width generalizing n with
  | zero => exact List.not_mem_nil
  | succ width ih =>
    rw [hexDigits, List.mem_append, List.mem_singleton, not_or]
    exact ⟨ih _, (hdigit _ (Nat.mod_lt n (by decide))).symm⟩

theorem feed_notMem_quotedChar {q : Char} (hq : q ≠ '\n') (c : Char) : '\n' ∉ quotedChar q c := by
  unfold quotedChar codePointEscape
  split
  · rename_i h
    rcases h with rfl | rfl
    · decide
    · simpa using hq.symm
  · split
    · decide
    · rename_i hfeed
      repeat' split
      all_goals simp [feed_notMem_hexDigits, Ne.symm hfeed]

theorem oneLine_quoted (s : String) : OneLine (quoted s) := by
  have hquote : quoteOf s.toList ≠ '\n' := by
    unfold quoteOf
    split <;> decide
  simp only [OneLine, quoted, String.toList_ofList, List.cons_append, List.mem_cons,
    List.mem_append, List.mem_flatMap, List.not_mem_nil, or_false, not_or, not_exists, not_and]
  exact ⟨hquote.symm, fun c _ => feed_notMem_quotedChar hquote c, hquote.symm⟩

end Text

open Text (OneLine oneLine_append)

theorem Expr.shown_oneLine (e : Expr) : OneLine e.shown := by
  induction e with
  | lit n =>
    rw [shown, oneLine_append, oneLine_append]
    exact ⟨⟨by decide, Text.oneLine_int n⟩, by decide⟩
  | var x => simp +decide [shown, oneLine_append, Text.oneLine_quoted]
  | add l r hl hr => simp +decide [shown, oneLine_append, hl, hr]
  | mul l r hl hr => simp +decide [shown, oneLine_append, hl, hr]

theorem bracketed_oneLine (asTuple : Bool) {items : List String} (h : ∀ s ∈ items, OneLine s) :
    OneLine (bracketed asTuple items) := by
  have hall := Text.oneLine_intercalate (by decide : OneLine ", ") h
  unfold bracketed
  split
  · split
    · simp +decide [oneLine_append, h _ List.mem_cons_self]
    · simp +decide [oneLine_append, hall]
  · simp +decide [oneLine_append, hall]

namespace Value

mutual

theorem shown_oneLine : ∀ v : Value, OneLine v.shown
  | .none => by decide
  | .bool true => by decide
  | .bool false => by decide
  | .int n => Text.oneLine_int n
  | .text s => Text.oneLine_quoted s
  | .list items => bracketed_oneLine false (shownAll_oneLine items)
  | .tuple items => bracketed_oneLine true (shownAll_oneLine items)
  | .left v => by simp +decide [shown, oneLine_append, shown_oneLine v]
  | .right v => by simp +decide [shown, oneLine_append, shown_oneLine v]
  | .expr e => e.shown_oneLine

theorem shownAll_oneLine : ∀ (vs : List Value), ∀ s ∈ shownAll vs, OneLine s
  | [] => nofun
  | v :: vs => by
    rw [shownAll]
    exact List.forall_mem_cons.2 ⟨shown_oneLine v, shownAll_oneLine vs⟩

end

end Value

end ParserAlgebra
