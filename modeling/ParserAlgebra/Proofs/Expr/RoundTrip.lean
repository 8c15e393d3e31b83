import ParserAlgebra.Proofs.Expr.Language

/-!
# Expressions written out and read back

A parse makes trees of one shape only, and each tree of this shape is what a parse makes of its own
text. What a parse consumes is the text of its tree, but for leading zeros.
-/

namespace ParserAlgebra.Expr

open Reading (Series)

/-! ### Canonical trees and their texts -/

inductive IsLeaf : Expr → Prop
  | lit {n : Int} (h : 0 ≤ n) (hn : n < 10 ^ Text.Decimal.maxDigits) : IsLeaf (.lit n)
  | var {x : String} (hne : x ≠ "") (hx : ∀ c ∈ x.toList, Text.isLetter c = true) : IsLeaf (.var x)

inductive RightNested (join : Expr → Expr → Expr) (P : Expr → Prop) : Expr → Prop
  | one {e : Expr} (h : P e) : RightNested join P e
  | more {l r : Expr} (hl : P l) (hr : RightNested join P r) : RightNested join P (join l r)

def IsProduct : Expr → Prop := RightNested .mul IsLeaf

/-- A sum, nested to the right, of products, nested to the right, of leaves. -/
def Canonical : Expr → Prop := RightNested .add IsProduct

def render : Expr → String
  | .lit n => toString n
  | .var x => x
  | .add l r => l.render ++ " + " ++ r.render
  | .mul l r => l.render ++ " * " ++ r.render

/-- A text without the leading zeros of its numbers; a number keeps its last digit. The flag tells
that a digit of the number at hand was kept. -/
def trimmed (inside : Bool) : List Char → List Char
  | [] => []
  | c :: cs =>
    if c.isDigit then
      if !inside && c == '0' && cs.head?.any Char.isDigit then trimmed false cs
      else c :: trimmed true cs
    else c :: trimmed false cs

/-! ### Numbers -/

theorem ofDigits_toDigits (n : Nat) :
    Text.Decimal.ofDigits ((Nat.toDigits 10 n).map fun c => c.toNat - '0'.toNat) = n := by
  rw [Text.Decimal.ofDigits, List.foldl_map]
  exact Nat.ofDigitChars_ten_toDigits

theorem toDigits_digit {c : Char} (h : c.isDigit = true) :
    c.toNat - '0'.toNat < 10 ∧ Nat.toDigits 10 (c.toNat - '0'.toNat) = [c] := by
  have hlow : 48 ≤ c.toNat := (Char.isDigit_iff_toNat.1 h).1
  have hhigh : c.toNat ≤ 57 := (Char.isDigit_iff_toNat.1 h).2
  have hchar : ∀ n, 48 ≤ n → n ≤ 57 → Nat.digitChar (n - 48) = Char.ofNat n := by
    intro n hn hn'
    interval_cases n <;> rfl
  have hzero : '0'.toNat = 48 := rfl
  have hlt : c.toNat - '0'.toNat < 10 := by omega
  refine ⟨hlt, ?_⟩
  rw [Nat.toDigits_of_lt_base hlt, hzero, hchar _ hlow hhigh, Char.ofNat_toNat]

theorem toDigits_foldl {n : Nat} (hn : 0 < n) {w : List Char} (hw : ∀ c ∈ w, c.isDigit = true) :
    Nat.toDigits 10 ((w.map fun c => c.toNat - '0'.toNat).foldl (fun n d => 10 * n + d) n) =
      Nat.toDigits 10 n ++ w := by
  induction w generalizing n with
  | nil => simp
  | cons c w ih =>
    obtain ⟨hlt, hdigit⟩ := toDigits_digit (hw c (by simp))
    have hpos : 0 < 10 * n + (c.toNat - '0'.toNat) := by omega
    rw [List.map_cons, List.foldl_cons, ih hpos fun d hd => hw d (by simp [hd]),
      ← Nat.toDigits_append_toDigits (by decide) hn hlt, hdigit, List.append_assoc]
    rfl

theorem trimmed_inside {w : List Char} (hw : ∀ c ∈ w, c.isDigit = true) : trimmed true w = w := by
  induction w with
  | nil => rfl
  | cons c w ih =>
    have hc : c.isDigit = true := hw c (by simp)
    simp only [trimmed, hc, if_true, Bool.not_true, Bool.false_and, Bool.false_eq_true, if_false]
    rw [ih fun d hd => hw d (by simp [hd])]

/-- The digits of a number are those of its value, without leading zeros. -/
theorem trimmed_digits {w : List Char} (hne : w ≠ []) (hw : ∀ c ∈ w, c.isDigit = true) :
    trimmed false w =
      Nat.toDigits 10 (Text.Decimal.ofDigits (w.map fun c => c.toNat - '0'.toNat)) := by
  induction w with
  | nil => exact absurd rfl hne
  | cons c w ih =>
    have hc : c.isDigit = true := hw c (by simp)
    have hw' : ∀ d ∈ w, d.isDigit = true := fun d hd => hw d (by simp [hd])
    obtain ⟨hlt, hdigit⟩ := toDigits_digit hc
    have hvalue : Text.Decimal.ofDigits ((c :: w).map fun c => c.toNat - '0'.toNat) =
        (w.map fun c => c.toNat - '0'.toNat).foldl (fun n d => 10 * n + d)
          (c.toNat - '0'.toNat) := by
      rw [Text.Decimal.ofDigits, List.map_cons, List.foldl_cons, Nat.mul_zero, Nat.zero_add]
    rw [hvalue]
    cases w with
    | nil =>
      rw [List.map_nil, List.foldl_nil, hdigit]
      simp [trimmed, hc]
    | cons d w =>
      have hd : d.isDigit = true := hw' d (by simp)
      by_cases hzero : c = '0'
      · subst hzero
        have hstep : trimmed false ('0' :: d :: w) = trimmed false (d :: w) := by
          simp [trimmed, hd]
        rw [hstep]
        exact ih (List.cons_ne_nil _ _) hw'
      · have hpos : 0 < c.toNat - '0'.toNat := by
          have hlow : '0'.toNat ≤ c.toNat := (Char.isDigit_iff_toNat.1 hc).1
          have hne : c.toNat ≠ '0'.toNat := fun h => hzero (Char.toNat_inj.1 h)
          omega
        have hstep : trimmed false (c :: d :: w) = c :: trimmed true (d :: w) := by
          rw [trimmed, if_pos hc, if_neg]
          simp [hzero]
        rw [hstep, trimmed_inside hw', toDigits_foldl hpos hw', hdigit]
        rfl

/-! ### Leading zeros -/

theorem trimmed_of_head {cs : List Char} (h : ∀ c ∈ cs.head?, c.isDigit = false) (inside : Bool) :
    trimmed inside cs = trimmed false cs := by
  cases cs with
  | nil => rfl
  | cons c cs =>
    have hc : c.isDigit = false := h c rfl
    simp [trimmed, hc]

theorem trimmed_append {w rest : List Char} (hrest : ∀ c ∈ rest.head?, c.isDigit = false)
    (inside : Bool) : trimmed inside (w ++ rest) = trimmed inside w ++ trimmed false rest := by
  induction w generalizing inside with
  | nil => exact trimmed_of_head hrest inside
  | cons c w ih =>
    have hhead : (w ++ rest).head?.any Char.isDigit = w.head?.any Char.isDigit := by
      cases w with
      | nil =>
        cases rest with
        | nil => rfl
        | cons d rest => simpa using hrest d rfl
      | cons d w => rfl
    rw [List.cons_append, trimmed, trimmed, hhead]
    split
    · split
      · exact ih false
      · rw [ih true, List.cons_append]
    · rw [ih false, List.cons_append]

theorem trimmed_letters {w : List Char} (hw : ∀ c ∈ w, Text.isLetter c = true) (inside : Bool) :
    trimmed inside w = w := by
  induction w generalizing inside with
  | nil => rfl
  | cons c w ih =>
    have hc : c.isDigit = false := by
      by_contra h
      have hletter : Text.isLetter c = true := hw c (by simp)
      rw [isLetter_of_isDigit (by simpa using h)] at hletter
      cases hletter
    rw [trimmed, if_neg (by simp [hc]), ih (fun d hd => hw d (by simp [hd]))]

theorem length_trimmed_le (inside : Bool) (w : List Char) :
    (trimmed inside w).length ≤ w.length := by
  induction w generalizing inside with
  | nil => exact Nat.le_refl _
  | cons c w ih =>
    have hfalse := ih false
    have htrue := ih true
    rw [trimmed, List.length_cons]
    split
    · split
      · omega
      · rw [List.length_cons]
        omega
    · rw [List.length_cons]
      omega

/-! ### Leaves -/

theorem toList_render_lit (n : Nat) : (render (.lit n)).toList = Nat.toDigits 10 n := by
  have hrender : render (.lit n) = n.repr := rfl
  rw [hrender, Nat.toList_repr]

theorem FactorOf.isLeaf {w : List Char} {e : Expr} (h : FactorOf w e) :
    IsLeaf e ∧ (render e).toList = trimmed false w := by
  cases h with
  | number hne hw hlen =>
    have htrimmed := trimmed_digits hne hw
    have hshort := length_trimmed_le false w
    rw [htrimmed] at hshort
    have hbound := (Nat.length_toDigits_le_iff (by decide) (by decide)).1 (hshort.trans hlen)
    refine ⟨.lit (Int.natCast_nonneg _) ?_, by rw [toList_render_lit, htrimmed]⟩
    exact_mod_cast hbound
  | name hne hw =>
    refine ⟨.var (by simpa using hne) (by simpa using hw), ?_⟩
    rw [render, String.toList_ofList, trimmed_letters hw]

theorem IsLeaf.factorOf {e : Expr} (h : IsLeaf e) : FactorOf (render e).toList e := by
  cases h with
  | @lit n h hn =>
    obtain ⟨k, rfl⟩ := Int.eq_ofNat_of_zero_le h
    have hlen : (Nat.toDigits 10 k).length ≤ Text.Decimal.maxDigits := by
      refine (Nat.length_toDigits_le_iff (by decide) (by decide)).2 ?_
      exact_mod_cast hn
    have hfactor := FactorOf.number Nat.toDigits_ne_nil
      (fun c hc => Nat.isDigit_of_mem_toDigits (by decide) (by decide) hc) hlen
    rw [ofDigits_toDigits] at hfactor
    rw [toList_render_lit]
    exact hfactor
  | @var x hne hx =>
    have hfactor := FactorOf.name (by simpa using hne) hx
    rw [String.ofList_toList] at hfactor
    exact hfactor

/-! ### Trees -/

section

variable {op : Char} {join : Expr → Expr → Expr} {P : Expr → Prop} {L : Language}

/-- The text of two trees with an operator between them, if the operator is written so. -/
def Written (op : Char) (join : Expr → Expr → Expr) : Prop :=
  ∀ l r, (render (join l r)).toList = (render l).toList ++ [' ', op, ' '] ++ (render r).toList

theorem written_mul : Written '*' .mul := by
  intro l r
  simp [render]

theorem written_add : Written '+' .add := by
  intro l r
  simp [render]

theorem rightNested_of_joinedOf (hop : op.isDigit = false) (hwritten : Written op join)
    (hL : ∀ {w e}, L w e → P e ∧ (render e).toList = trimmed false w) {w : List Char} {e : Expr}
    (h : JoinedOf [' ', op, ' '] join L w e) :
    RightNested join P e ∧ (render e).toList = trimmed false w := by
  induction h with
  | one h => exact ⟨.one (hL h).1, (hL h).2⟩
  | @more w u e e' h _ ih =>
    obtain ⟨hP, hrender⟩ := hL h
    obtain ⟨hnested, hrender'⟩ := ih
    have hspace : ' '.isDigit = false := rfl
    refine ⟨.more hP hnested, ?_⟩
    rw [hwritten, hrender, hrender', List.append_assoc, List.append_assoc,
      trimmed_append fun c hc => by cases hc; rfl]
    simp [trimmed, hop, hspace]

theorem joinedOf_of_rightNested (hwritten : Written op join)
    (hP : ∀ {e}, P e → L (render e).toList e) {e : Expr} (h : RightNested join P e) :
    JoinedOf [' ', op, ' '] join L (render e).toList e := by
  induction h with
  | one h => exact .one (hP h)
  | more hl _ ih =>
    rw [hwritten]
    exact .more (hP hl) ih

end

theorem ExpressionOf.canonical {w : List Char} {e : Expr} (h : ExpressionOf w e) :
    Canonical e ∧ (render e).toList = trimmed false w :=
  rightNested_of_joinedOf rfl written_add
    (rightNested_of_joinedOf rfl written_mul FactorOf.isLeaf) h

theorem Canonical.expressionOf {e : Expr} (h : Canonical e) : ExpressionOf (render e).toList e :=
  joinedOf_of_rightNested written_add (joinedOf_of_rightNested written_mul IsLeaf.factorOf) h

/-! ### Reading words as they stand -/

theorem behind_append {sep t mid : List Char} {f : Reading Expr} {e : Expr}
    (h : f t = .ok (some (e, mid))) : behind sep f (sep ++ t) = .ok (some (e, mid)) := by
  have hskip : Reading.skip sep (sep ++ t) = .ok (some ((), t)) := Reading.skip_eq_some.2 rfl
  simp [behind, Reading.map, Reading.andThen, Reading.bind, hskip, h, Except.map]

theorem factor_exact {w rest : List Char} {e : Expr} (h : FactorOf w e)
    (hrest : ∀ c ∈ rest.head?, c = ' ') : factor (w ++ rest) = .ok (some (e, rest)) := by
  cases h with
  | number hne hw hlen =>
    have hword : digits (w ++ rest) = .ok (some (w, rest)) :=
      Reading.word_append hne hw fun c hc => by rw [hrest c hc]; rfl
    simp [factor, Reading.orElse, number, Reading.map, Reading.bind, hword, numberOf,
      Nat.not_lt_of_le hlen, Except.map]
  | name hne hw =>
    have hword : letters (w ++ rest) = .ok (some (w, rest)) :=
      Reading.word_append hne hw fun c hc => by rw [hrest c hc]; exact isLetter_space
    have hnone : digits (w ++ rest) = .ok none := by
      obtain ⟨d, hd, hhead⟩ := head_eq rest hne
      refine Reading.word_eq_none.2 fun c hc => ?_
      rw [hhead] at hc
      cases hc
      by_contra hdigit
      have hfalse : Text.isLetter d = false := isLetter_of_isDigit (by simpa using hdigit)
      rw [hw d hd] at hfalse
      cases hfalse
    simp [factor, Reading.orElse, number, name, Reading.map, Reading.bind, hword, hnone, Except.map]

theorem joined_exact {sep : List Char} {join : Expr → Expr → Expr} {f : Reading Expr} {L : Language}
    {Stop : List Char → Prop} (hf : Reading.Consumes f)
    (hexact : ∀ {w rest e}, L w e → Stop rest → f (w ++ rest) = .ok (some (e, rest)))
    (hsep : ∀ t, Stop (sep ++ t)) {w rest : List Char} {e : Expr} (h : JoinedOf sep join L w e)
    (hstop : Stop rest) (hnone : behind sep f rest = .ok none) :
    joined sep join f (w ++ rest) = .ok (some (e, rest)) := by
  induction h with
  | one h => exact (joined_eq_some hf).2 ⟨_, [], rest, hexact h hstop, .stop hnone, rfl⟩
  | @more w u e e' h _ ih =>
    obtain ⟨a, as, mid, ha, has, rfl⟩ := (joined_eq_some hf).1 ih
    have hfirst : f (w ++ (sep ++ (u ++ rest))) = .ok (some (e, sep ++ (u ++ rest))) :=
      hexact h (hsep _)
    rw [List.append_assoc, List.append_assoc]
    exact (joined_eq_some hf).2
      ⟨e, a :: as, sep ++ (u ++ rest), hfirst, .more (behind_append ha) has, rfl⟩

theorem term_exact {w rest : List Char} {e : Expr} (h : TermOf w e)
    (hrest : rest = [] ∨ ∃ t, rest = [' ', '+', ' '] ++ t) :
    term (w ++ rest) = .ok (some (e, rest)) := by
  refine joined_exact factor_consumes factor_exact (fun t c hc => by cases hc; rfl) h ?_ ?_
  · rintro c hc
    rcases hrest with rfl | ⟨t, rfl⟩
    · cases hc
    · cases hc
      rfl
  · rcases hrest with rfl | ⟨t, rfl⟩ <;> rfl

theorem expression_exact {w : List Char} {e : Expr} (h : ExpressionOf w e) :
    expression w = .ok (some (e, [])) := by
  have hread := joined_exact term_consumes term_exact (fun t => .inr ⟨t, rfl⟩) h (.inl rfl) rfl
  rw [List.append_nil] at hread
  exact hread

theorem parse_whole {text : String} {e : Expr} (h : ExpressionOf text.toList e) :
    parse false text = pure ⟨text, .accept (.expr e) text.length⟩ := by
  obtain ⟨stop, hstop, hparse⟩ := (parse_eq text).2.2 e [] (expression_exact h)
  rw [List.length_nil, Nat.add_zero] at hstop
  rw [hparse, hstop]

theorem parse_expressionOf {text : String} {e : Expr} (h : ExpressionOf text.toList e)
    (m : Memory) :
    (parse false text).exec m = (.ok ⟨text, .accept (.expr e) text.length⟩, m) := by
  rw [parse_whole h, Run.exec_pure]

/-! ### Round trips -/

/-- A canonical tree is what a parse makes of its text. Every tree that a parse makes is canonical,
and its text is the text consumed, without leading zeros. -/
theorem parse_render (m : Memory) :
    (∀ e, Canonical e →
      (parse false (render e)).exec m =
        (.ok ⟨render e, .accept (.expr e) (render e).length⟩, m)) ∧
    ∀ text v stop m', (parse false text).exec m = (.ok ⟨text, .accept v stop⟩, m') →
      ∃ e, v = .expr e ∧ Canonical e ∧
        (render e).toList = trimmed false (text.toList.take stop) := by
  refine ⟨fun e he => parse_expressionOf he.expressionOf m, fun text v stop m' hrun => ?_⟩
  obtain ⟨hfault, hreject, haccept⟩ := parse_eq text
  rcases hread : expression text.toList with f | _ | ⟨e, rest⟩
  · rw [hfault f hread] at hrun
    cases hrun
  · rw [hreject hread] at hrun
    cases hrun
  · obtain ⟨stop', hstop, hparse⟩ := haccept e rest hread
    rw [hparse] at hrun
    cases hrun
    obtain ⟨w, hcs, hw⟩ := expression_greedy.reads hread
    obtain ⟨hcanonical, hrender⟩ := hw.canonical
    have hlen := congrArg List.length hcs
    rw [List.length_append, String.length_toList] at hlen
    have htake : text.toList.take stop = w := by
      have hstop' : stop = w.length := by omega
      rw [hcs, hstop', List.take_left]
    exact ⟨e, rfl, hcanonical, by rw [hrender, htake]⟩

theorem parse_render_leading_zeros :
    ∃ e, (parse false "007 * x").exec freshMemory =
        (.ok ⟨"007 * x", .accept (.expr e) 7⟩, freshMemory) ∧
      Canonical e ∧ (render e).toList = "7 * x".toList := by
  have hseven : FactorOf ['0', '0', '7'] (.lit 7) :=
    .number (by simp) (List.all_eq_true.1 rfl) (by decide)
  have hx : FactorOf ['x'] (.var "x") := .name (by simp) (List.all_eq_true.1 rfl)
  have hexpr : ExpressionOf "007 * x".toList (.mul (.lit 7) (.var "x")) :=
    .one (.more hseven (.one hx))
  have hrun := parse_expressionOf hexpr freshMemory
  obtain ⟨e, he, hcanonical, hrender⟩ := (parse_render freshMemory).2 _ _ _ _ hrun
  cases he
  exact ⟨_, hrun, hcanonical, hrender.trans (by decide)⟩

end ParserAlgebra.Expr
