import ParserAlgebra.Proofs.Expr.Language

/-!
# Expressions are recognised

A parse of a text stops behind the longest expression that the text begins with, and rejects where
the text begins with none.
-/

namespace ParserAlgebra.Expr

open Reading (Blames)

/-! ### Which texts are expressions -/

def IsFactor (w : List Char) : Prop :=
  w ≠ [] ∧ ((∀ c ∈ w, c.isDigit = true) ∨ ∀ c ∈ w, Text.isLetter c = true)

/-- One word or more, with the separator between any two. -/
def IsJoined (sep : List Char) (P : List Char → Prop) (w : List Char) : Prop :=
  ∃ words, words ≠ [] ∧ (∀ v ∈ words, P v) ∧ w = sep.intercalate words

def IsTerm : List Char → Prop := IsJoined [' ', '*', ' '] IsFactor

def IsExpression : List Char → Prop := IsJoined [' ', '+', ' '] IsTerm

/-- No run of digits is too long to be read as a number. -/
def RunsFit (cs : List Char) : Prop :=
  ∀ ds, ds <:+: cs → (∀ c ∈ ds, c.isDigit = true) → ds.length ≤ Text.Decimal.maxDigits

theorem intercalate_cons {sep v u : List Char} {words : List (List Char)} :
    sep.intercalate (v :: u :: words) = v ++ sep ++ sep.intercalate (u :: words) := by
  simp [List.intercalate, List.intersperse]

theorem isJoined_of_joinedOf {sep : List Char} {join : Expr → Expr → Expr} {L : Language}
    {P : List Char → Prop} (hL : ∀ w e, L w e → P w) {w : List Char} {e : Expr}
    (h : JoinedOf sep join L w e) : IsJoined sep P w := by
  induction h with
  | @one w e h => exact ⟨[w], by simp, by simpa using hL w e h, by simp [List.intercalate]⟩
  | @more w u e e' h _ ih =>
    obtain ⟨words, hne, hwords, rfl⟩ := ih
    cases words with
    | nil => exact absurd rfl hne
    | cons v words =>
      refine ⟨w :: v :: words, by simp, fun x hx => ?_, intercalate_cons.symm⟩
      rcases List.mem_cons.1 hx with rfl | hx
      · exact hL _ e h
      · exact hwords x hx

theorem joinedOf_of_isJoined {sep : List Char} (join : Expr → Expr → Expr) {L : Language}
    {P : List Char → Prop} {w : List Char} (hL : ∀ v, v <:+: w → P v → ∃ e, L v e)
    (h : IsJoined sep P w) : ∃ e, JoinedOf sep join L w e := by
  obtain ⟨words, hne, hwords, rfl⟩ := h
  induction words with
  | nil => exact absurd rfl hne
  | cons v words ih =>
    cases words with
    | nil =>
      have hv : sep.intercalate [v] = v := by simp [List.intercalate]
      have hself : v <:+: sep.intercalate [v] := hv.symm ▸ List.infix_rfl
      obtain ⟨e, he⟩ := hL v hself (hwords v (by simp))
      rw [hv]
      exact ⟨e, .one he⟩
    | cons u words =>
      rw [intercalate_cons] at hL ⊢
      have hv : v <:+: v ++ sep ++ sep.intercalate (u :: words) :=
        List.infix_append_of_infix_left List.infix_append_left
      obtain ⟨e, he⟩ := hL v hv (hwords v (by simp))
      obtain ⟨e', he'⟩ := ih (by simp) (fun x hx => hwords x (List.mem_cons_of_mem _ hx))
        fun x hx => hL x (List.infix_append_of_infix_right hx)
      exact ⟨_, .more he he'⟩

theorem isExpression_of {w : List Char} {e : Expr} (h : ExpressionOf w e) : IsExpression w := by
  refine isJoined_of_joinedOf (fun t e ht => isJoined_of_joinedOf (fun f e hf => ?_) ht) h
  cases hf with
  | number hne hw _ => exact ⟨hne, .inl hw⟩
  | name hne hw => exact ⟨hne, .inr hw⟩

theorem expressionOf {w : List Char} (hfit : RunsFit w) (h : IsExpression w) :
    ∃ e, ExpressionOf w e := by
  refine joinedOf_of_isJoined _ (fun t ht hterm => joinedOf_of_isJoined _ (fun f hf hfactor => ?_)
    hterm) h
  obtain ⟨hne, hdigits | hletters⟩ := hfactor
  · exact ⟨_, .number hne hdigits (hfit f (hf.trans ht) hdigits)⟩
  · exact ⟨_, .name hne hletters⟩

/-! ### Faults -/

/-- A run of digits that is too long, and the fault of it. -/
def TooLong (ds : List Char) (f : Fault) : Prop :=
  (∀ c ∈ ds, c.isDigit = true) ∧ Text.Decimal.maxDigits < ds.length ∧ f = .tooManyDigits ds.length

theorem number_blames : Blames TooLong number := by
  intro cs e h
  rcases Reading.bind_eq_error h with h | ⟨ds, rest, hds, h⟩
  · cases h
  · obtain ⟨-, hdigits, hcs, -⟩ := Reading.word_eq_some hds
    by_cases hlong : Text.Decimal.maxDigits < ds.length
    · rw [hcs]
      have he : Fault.tooManyDigits ds.length = e := by
        simpa [numberOf, hlong, Except.map] using h
      exact ⟨ds, List.infix_append_left, hdigits, hlong, he.symm⟩
    · simp [numberOf, hlong, Except.map] at h

theorem joined_blames {P : List Char → Fault → Prop} {sep : List Char} {join : Expr → Expr → Expr}
    {f : Reading Expr} (hf : Blames P f) (hc : Reading.Consumes f) :
    Blames P (joined sep join f) := by
  have hbehind : Blames P (behind sep f) := by
    refine .map (.andThen (.skip sep) (fun cs u rest h => ⟨sep, ?_⟩) hf) _
    exact Reading.skip_eq_some.1 h
  refine .map (.andThen hf (fun cs a rest h => ?_) (.atLeast hbehind (behind_consumes hc) 0)) _
  obtain ⟨w, -, hw⟩ := hc cs a rest h
  exact ⟨w, hw⟩

theorem factor_blames : Blames TooLong factor :=
  .orElse number_blames (.map (.word _) _)

theorem expression_blames : Blames TooLong expression :=
  joined_blames (joined_blames factor_blames factor_consumes) term_consumes

theorem expression_error {cs : List Char} {f : Fault} (h : expression cs = .error f) :
    ∃ n, f = .tooManyDigits n := by
  obtain ⟨ds, -, -, -, rfl⟩ := expression_blames cs f h
  exact ⟨_, rfl⟩

theorem expression_ne_error {cs : List Char} (hfit : RunsFit cs) (e : Fault) :
    expression cs ≠ .error e := by
  intro h
  obtain ⟨ds, hds, hdigits, hlong, -⟩ := expression_blames cs e h
  exact Nat.not_lt_of_le (hfit ds hds hdigits) hlong

/-! ### Parses -/

theorem RunsFit.of_infix {cs ds : List Char} (hfit : RunsFit cs) (h : ds <:+: cs) : RunsFit ds :=
  fun es hes => hfit es (hes.trans h)

/-- A parse of a text, with whatever in the memory, accepts exactly if the text begins with an
expression, and then stops behind the longest one. -/
theorem parse_recognizes (text : String) (m : Memory) (hfit : RunsFit text.toList) :
    ((∃ w, w <+: text.toList ∧ IsExpression w) →
      ∃ e w, (parse false text).exec m = (.ok ⟨text, .accept (.expr e) w.length⟩, m) ∧
        w <+: text.toList ∧ IsExpression w ∧
        ∀ w', w' <+: text.toList → IsExpression w' → w'.length ≤ w.length) ∧
    ((¬∃ w, w <+: text.toList ∧ IsExpression w) →
      ∃ why, (parse false text).exec m = (.ok ⟨text, .reject why 0⟩, m) ∧
        why.text = if text = "" then "Input has ended but was expecting a letter"
          else "Input did not contain a letter at index 0") := by
  obtain ⟨-, hreject, haccept⟩ := parse_eq text
  have htree : ∀ w, w <+: text.toList → IsExpression w → ∃ e, ExpressionOf w e :=
    fun w hw => expressionOf (hfit.of_infix hw.isInfix)
  rcases hread : expression text.toList with e | _ | ⟨e, rest⟩
  · exact absurd hread (expression_ne_error hfit e)
  · refine ⟨fun ⟨w, hw, hexpr⟩ => ?_, fun _ => ⟨_, by rw [hreject hread]; rfl, ?_⟩⟩
    · obtain ⟨e, he⟩ := htree w hw hexpr
      obtain ⟨t, ht⟩ := hw
      rw [← ht] at hread
      exact absurd he (expression_greedy.complete hread)
    · by_cases h : text = ""
      · subst h
        rfl
      · have hne : text.toList ≠ [] := by simpa using h
        simp only [noLetter, hne, h, if_false]
        rfl
  · obtain ⟨stop, hstop, hparse⟩ := haccept e rest hread
    obtain ⟨w, hcs, hw⟩ := expression_greedy.reads hread
    have hlen := congrArg List.length hcs
    rw [List.length_append, String.length_toList] at hlen
    have hprefix : w <+: text.toList := ⟨rest, hcs.symm⟩
    refine ⟨fun _ => ⟨e, w, ?_, hprefix, isExpression_of hw, fun w' hw' hexpr => ?_⟩,
      fun hnone => ?_⟩
    · have hw : stop = w.length := by omega
      rw [hparse, hw]
      rfl
    · obtain ⟨e', he'⟩ := htree w' hw' hexpr
      obtain ⟨t, ht⟩ := hw'
      have hle := expression_greedy.longest hread ht.symm he'
      have hlen' := congrArg List.length ht
      rw [List.length_append, String.length_toList] at hlen'
      omega
    · exact absurd ⟨w, hprefix, isExpression_of hw⟩ hnone

theorem parse_recognizes_half_read : RunsFit "2 * x + ".toList ∧
    ∃ e w, (parse false "2 * x + ").exec freshMemory =
        (.ok ⟨"2 * x + ", .accept (.expr e) w.length⟩, freshMemory) ∧
      w <+: "2 * x + ".toList ∧ IsExpression w ∧
      ∀ w', w' <+: "2 * x + ".toList → IsExpression w' → w'.length ≤ w.length := by
  have hfit : RunsFit "2 * x + ".toList := fun ds hds _ => hds.length_le.trans (by decide)
  have htwo : IsFactor ['2'] := ⟨by simp, .inl (List.all_eq_true.1 rfl)⟩
  have hx : IsFactor ['x'] := ⟨by simp, .inr (List.all_eq_true.1 rfl)⟩
  have hterm : IsTerm "2 * x".toList := ⟨[['2'], ['x']], by simp, by simp [htwo, hx], rfl⟩
  have hexpr : IsExpression "2 * x".toList := ⟨["2 * x".toList], by simp, by simpa using hterm, rfl⟩
  have hprefix : "2 * x".toList <+: "2 * x + ".toList := ⟨" + ".toList, rfl⟩
  exact ⟨hfit, (parse_recognizes "2 * x + " freshMemory hfit).1 ⟨_, hprefix, hexpr⟩⟩

end ParserAlgebra.Expr
