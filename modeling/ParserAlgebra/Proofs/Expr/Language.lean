import ParserAlgebra.Proofs.Expr.Reading

/-!
# The language of expressions

Which texts are expressions, and what tree each of them stands for. The reading of operands with a
separator is greedy for the joined words if the reading of operands is greedy for the words and no
word ends in the way that a separator begins.
-/

namespace ParserAlgebra.Expr

open Reading (Consumes Series)

/-! ### Words and their trees -/

abbrev Language := List Char → Expr → Prop

inductive FactorOf : Language
  | number {w : List Char} (hne : w ≠ []) (hw : ∀ c ∈ w, c.isDigit = true)
      (hlen : w.length ≤ Text.Decimal.maxDigits) :
      FactorOf w (.lit (Text.Decimal.ofDigits (w.map fun c => c.toNat - '0'.toNat)))
  | name {w : List Char} (hne : w ≠ []) (hw : ∀ c ∈ w, Text.isLetter c = true) :
      FactorOf w (.var (String.ofList w))

/-- Words with a separator between any two, with their trees joined from the right. -/
inductive JoinedOf (sep : List Char) (join : Expr → Expr → Expr) (L : Language) : Language
  | one {w : List Char} {e : Expr} (h : L w e) : JoinedOf sep join L w e
  | more {w u : List Char} {e e' : Expr} (h : L w e) (hu : JoinedOf sep join L u e') :
      JoinedOf sep join L (w ++ sep ++ u) (join e e')

def TermOf : Language := JoinedOf [' ', '*', ' '] .mul FactorOf

def ExpressionOf : Language := JoinedOf [' ', '+', ' '] .add TermOf

/-! ### Greedy readings -/

/-- The reading takes the longest word off the list, and finds nothing only where no word is. -/
structure Greedy (f : Reading Expr) (L : Language) : Prop where
  reads : ∀ {cs rest e}, f cs = .ok (some (e, rest)) → ∃ w, cs = w ++ rest ∧ L w e
  longest : ∀ {cs rest rest' w e e'}, f cs = .ok (some (e, rest)) → cs = w ++ rest' → L w e' →
    rest.length ≤ rest'.length
  complete : ∀ {w rest e}, f (w ++ rest) = .ok none → ¬L w e

/-- No word ends in the way that a separator begins. -/
def Cut (sep : List Char) (L : Language) : Prop :=
  ∀ v x y z e, L (v ++ x) e → x ++ y = sep ++ z → x = []

theorem joined_eq_some {sep : List Char} {join : Expr → Expr → Expr} {f : Reading Expr}
    (hf : Consumes f) {cs rest : List Char} {e : Expr} :
    joined sep join f cs = .ok (some (e, rest)) ↔ ∃ a as mid, f cs = .ok (some (a, mid)) ∧
      Series (behind sep f) mid as rest ∧ e = Grammar.foldRight join a as := by
  constructor
  · intro h
    obtain ⟨⟨a, as⟩, hx, he⟩ := Reading.map_eq_some h
    obtain ⟨mid, ha, has⟩ := Reading.andThen_eq_some hx
    cases he
    exact ⟨a, as, mid, ha, (Reading.atLeast_zero_eq_some (behind_consumes hf)).1 has, rfl⟩
  · rintro ⟨a, as, mid, ha, has, rfl⟩
    have hmore := (Reading.atLeast_zero_eq_some (behind_consumes hf)).2 has
    simp [joined, separated, Reading.map, Reading.andThen, Reading.bind, ha, hmore, Except.map]

section

variable {sep : List Char} {join : Expr → Expr → Expr} {f : Reading Expr} {L : Language}

theorem behind_eq_none {mid : List Char} (h : behind sep f (sep ++ mid) = .ok none) :
    f mid = .ok none := by
  have hskip : Reading.skip sep (sep ++ mid) = .ok (some ((), mid)) := Reading.skip_eq_some.2 rfl
  have hpair := Reading.map_eq_none h
  simp only [Reading.andThen, Reading.bind, hskip] at hpair
  split at hpair
  · cases hpair
  · assumption
  · cases hpair

theorem series_reads (hf : Greedy f L) {mid rest : List Char} {as : List Expr}
    (h : Series (behind sep f) mid as rest) {w : List Char} {a : Expr} (ha : L w a) :
    ∃ u, mid = u ++ rest ∧ JoinedOf sep join L (w ++ u) (Grammar.foldRight join a as) := by
  induction h generalizing w a with
  | stop =>
    refine ⟨[], rfl, ?_⟩
    rw [List.append_nil]
    exact .one ha
  | @more cs mid rest b bs hb _ ih =>
    obtain ⟨t, rfl, hread⟩ := behind_eq_some hb
    obtain ⟨v, rfl, hv⟩ := hf.reads hread
    obtain ⟨u, rfl, hu⟩ := ih hv
    refine ⟨sep ++ (v ++ u), by simp only [List.append_assoc], ?_⟩
    rw [← List.append_assoc]
    exact .more ha hu

/-- The first of two words that begin a list is the one that was read, if a separator and a further
word are behind it. -/
theorem word_eq (hf : Greedy f L) (hcut : Cut sep L) {v t mid : List Char} {a b : Expr}
    (ha : f (v ++ (sep ++ t)) = .ok (some (a, mid))) (hb : L v b) : mid = sep ++ t := by
  obtain ⟨w, hw, hwa⟩ := hf.reads ha
  have hle : mid.length ≤ (sep ++ t).length := hf.longest ha rfl hb
  rcases List.append_eq_append_iff.1 hw with ⟨x, rfl, hx⟩ | ⟨x, rfl, hx⟩
  · have hnil : x = [] := hcut v x mid t a hwa hx.symm
    rw [hnil, List.nil_append] at hx
    exact hx.symm
  · have hlen := congrArg List.length hx
    rw [List.length_append] at hlen
    have hx0 : x = [] := List.length_eq_zero_iff.1 (by omega)
    rw [hx0, List.nil_append] at hx
    exact hx

theorem first_longest (hf : Greedy f L) (hcut : Cut sep L) {cs mid rest : List Char} {a : Expr}
    (ha : f cs = .ok (some (a, mid))) (hle : rest.length ≤ mid.length)
    (hmore : ∀ u rest' e, mid = sep ++ (u ++ rest') → JoinedOf sep join L u e →
      rest.length ≤ rest'.length) {w rest' : List Char} {e : Expr} (hcs : cs = w ++ rest')
    (hw : JoinedOf sep join L w e) : rest.length ≤ rest'.length := by
  cases hw with
  | one h => exact hle.trans (hf.longest ha hcs h)
  | @more v u b e' h hu =>
    have hcs' : cs = v ++ (sep ++ (u ++ rest')) := by
      rw [hcs]
      simp only [List.append_assoc]
    rw [hcs'] at ha
    exact hmore u rest' e' (word_eq hf hcut ha h) hu

theorem series_longest (hf : Greedy f L) (hc : Consumes f) (hcut : Cut sep L)
    {mid rest : List Char} {as : List Expr} (h : Series (behind sep f) mid as rest)
    (u rest' : List Char) (e : Expr) (hmid : mid = sep ++ (u ++ rest'))
    (hu : JoinedOf sep join L u e) : rest.length ≤ rest'.length := by
  induction h generalizing u rest' e with
  | stop hnone =>
    -- Here the run of operands stops, so no word is behind a separator.
    rw [hmid] at hnone
    have hf' : f (u ++ rest') = .ok none := behind_eq_none hnone
    cases hu with
    | one h => exact absurd h (hf.complete hf')
    | more h _ =>
      rw [List.append_assoc, List.append_assoc] at hf'
      exact absurd h (hf.complete hf')
  | @more cs mid' rest b bs hb hrest ih =>
    obtain ⟨t, ht, hread⟩ := behind_eq_some hb
    have htu : t = u ++ rest' := by
      rw [hmid] at ht
      exact (List.append_cancel_left ht).symm
    obtain ⟨w, hw⟩ := hrest.append (behind_consumes hc)
    have hle : rest.length ≤ mid'.length := by
      rw [hw, List.length_append]
      omega
    exact first_longest hf hcut hread hle ih htu hu

theorem joined_greedy (hf : Greedy f L) (hc : Consumes f) (hcut : Cut sep L) :
    Greedy (joined sep join f) (JoinedOf sep join L) where
  reads {cs rest e} h := by
    obtain ⟨a, as, mid, ha, has, rfl⟩ := (joined_eq_some hc).1 h
    obtain ⟨w, rfl, hw⟩ := hf.reads ha
    obtain ⟨u, rfl, hu⟩ := series_reads hf has hw
    exact ⟨w ++ u, (List.append_assoc ..).symm, hu⟩
  longest {cs rest rest' w e e'} h hcs hw := by
    obtain ⟨a, as, mid, ha, has, -⟩ := (joined_eq_some hc).1 h
    obtain ⟨u, hu⟩ := has.append (behind_consumes hc)
    have hle : rest.length ≤ mid.length := by
      rw [hu, List.length_append]
      omega
    exact first_longest hf hcut ha hle (series_longest hf hc hcut has) hcs hw
  complete {w rest e} h hw := by
    have hnone : f (w ++ rest) = .ok none := joined_eq_none h
    cases hw with
    | one hw => exact hf.complete hnone hw
    | more hw _ =>
      rw [List.append_assoc, List.append_assoc] at hnone
      exact hf.complete hnone hw

end

/-! ### Factors -/

theorem isLetter_eq_false {c : Char} (h : c.toNat < 0x41) : Text.isLetter c = false := by
  rw [Text.isLetter, Text.letterRanges, Text.inRanges, if_pos h]

theorem isLetter_of_isDigit {c : Char} (h : c.isDigit = true) : Text.isLetter c = false :=
  isLetter_eq_false (Nat.lt_of_le_of_lt (Char.isDigit_iff_toNat.1 h).2 (by decide))

theorem head_eq {w : List Char} (rest : List Char) (hne : w ≠ []) :
    ∃ c ∈ w, (w ++ rest).head? = some c := by
  cases w with
  | nil => exact absurd rfl hne
  | cons c w => exact ⟨c, by simp, rfl⟩

/-- Where the first character fails a test, no word of characters that pass it begins. -/
theorem not_all_of_head {test : Char → Bool} {w rest : List Char}
    (h : ∀ c ∈ (w ++ rest).head?, test c = false) (hne : w ≠ []) : ¬∀ c ∈ w, test c = true := by
  intro hw
  obtain ⟨c, hc, hhead⟩ := head_eq rest hne
  have hfalse := h c hhead
  rw [hw c hc] at hfalse
  cases hfalse

/-- A word whose characters pass a test goes no further than a run that ends where the test
fails. -/
theorem run_longest {test : Char → Bool} {w rest w' rest' : List Char}
    (hrest : ∀ c ∈ rest.head?, test c = false) (hw' : ∀ c ∈ w', test c = true)
    (h : w ++ rest = w' ++ rest') : rest.length ≤ rest'.length := by
  rcases List.append_eq_append_iff.1 h with ⟨x, rfl, hx⟩ | ⟨x, -, hx⟩
  · cases x with
    | nil =>
      rw [List.nil_append] at hx
      rw [hx]
    | cons c x =>
      have hfalse : test c = false := hrest c (by rw [hx]; rfl)
      have htrue : test c = true := hw' c (by simp)
      rw [hfalse] at htrue
      cases htrue
  · rw [hx, List.length_append]
    omega

theorem number_eq_some {cs rest : List Char} {e : Expr} (h : number cs = .ok (some (e, rest))) :
    ∃ w, cs = w ++ rest ∧ FactorOf w e ∧ w ≠ [] ∧ (∀ c ∈ w, c.isDigit = true) ∧
      ∀ c ∈ rest.head?, c.isDigit = false := by
  obtain ⟨w, hw, he⟩ := Reading.map_eq_some h
  obtain ⟨hne, hdigits, hcs, hrest⟩ := Reading.word_eq_some hw
  unfold numberOf at he
  split at he
  · cases he
  · rename_i hlen
    cases he
    exact ⟨w, hcs, .number hne hdigits (Nat.le_of_not_lt hlen), hne, hdigits, hrest⟩

theorem name_eq_some {cs rest : List Char} {e : Expr} (h : name cs = .ok (some (e, rest))) :
    ∃ w, cs = w ++ rest ∧ FactorOf w e ∧ w ≠ [] ∧ (∀ c ∈ w, Text.isLetter c = true) ∧
      ∀ c ∈ rest.head?, Text.isLetter c = false := by
  obtain ⟨w, hw, he⟩ := Reading.map_eq_some h
  obtain ⟨hne, hletters, hcs, hrest⟩ := Reading.word_eq_some hw
  cases he
  exact ⟨w, hcs, .name hne hletters, hne, hletters, hrest⟩

theorem factor_greedy : Greedy factor FactorOf where
  reads {cs rest e} h := by
    rcases Reading.orElse_eq_some h with h | ⟨-, h⟩
    · obtain ⟨w, hcs, hw, -⟩ := number_eq_some h
      exact ⟨w, hcs, hw⟩
    · obtain ⟨w, hcs, hw, -⟩ := name_eq_some h
      exact ⟨w, hcs, hw⟩
  longest {cs rest rest' w e e'} h hcs hw := by
    rcases Reading.orElse_eq_some h with h | ⟨hnone, h⟩
    · obtain ⟨v, hv, -, hne, hdigits, hrest⟩ := number_eq_some h
      rw [hv] at hcs
      cases hw with
      | number _ hw _ => exact run_longest hrest hw hcs
      | name hne' hw =>
        obtain ⟨d, hd, hhead⟩ := head_eq rest hne
        rw [hcs] at hhead
        have hletter : ∀ c ∈ (w ++ rest').head?, Text.isLetter c = false := by
          intro c hc
          rw [hhead] at hc
          cases hc
          exact isLetter_of_isDigit (hdigits d hd)
        exact absurd hw (not_all_of_head hletter hne')
    · obtain ⟨v, hv, -, -, -, hrest⟩ := name_eq_some h
      have hdigit := Reading.word_eq_none.1 (Reading.map_eq_none hnone)
      cases hw with
      | number hne' hw _ =>
        rw [hcs] at hdigit
        exact absurd hw (not_all_of_head hdigit hne')
      | name _ hw =>
        rw [hv] at hcs
        exact run_longest hrest hw hcs
  complete {w rest e} h hw := by
    obtain ⟨hnumber, hname⟩ := Reading.orElse_eq_none h
    have hdigit := Reading.word_eq_none.1 (Reading.map_eq_none hnumber)
    have hletter := Reading.word_eq_none.1 (Reading.map_eq_none hname)
    cases hw with
    | number hne hw _ => exact not_all_of_head hdigit hne hw
    | name hne hw => exact not_all_of_head hletter hne hw

/-! ### Words and separators -/

theorem FactorOf.ne {w : List Char} {e : Expr} (h : FactorOf w e) {c d : Char} (hc : c ∈ w)
    (hdigit : d.isDigit = false) (hletter : Text.isLetter d = false) : c ≠ d := by
  rintro rfl
  cases h with
  | number _ hw _ =>
    rw [hw c hc] at hdigit
    cases hdigit
  | name _ hw =>
    rw [hw c hc] at hletter
    cases hletter

theorem FactorOf.ne_nil {w : List Char} {e : Expr} (h : FactorOf w e) : w ≠ [] := by
  cases h with
  | number hne _ _ => exact hne
  | name hne _ => exact hne

theorem isLetter_space : Text.isLetter ' ' = false := isLetter_eq_false (by decide)

theorem factor_cut : Cut [' ', '*', ' '] FactorOf := by
  intro v x y z e hx h
  cases x with
  | nil => rfl
  | cons c x =>
    obtain ⟨rfl, -⟩ := List.cons.inj h
    exact absurd rfl (hx.ne (by simp) rfl isLetter_space)

/-- A term contains no sign of a sum and does not end in a space. -/
theorem TermOf.plain {w : List Char} {e : Expr} (h : TermOf w e) :
    w ≠ [] ∧ '+' ∉ w ∧ w.getLast? ≠ some ' ' := by
  have hfactor : ∀ {w e}, FactorOf w e → '+' ∉ w ∧ w.getLast? ≠ some ' ' := by
    intro w e h
    refine ⟨fun hc => ?_, fun hlast => ?_⟩
    · exact h.ne hc rfl (isLetter_eq_false (by decide)) rfl
    · exact h.ne (List.mem_of_getLast? hlast) rfl isLetter_space rfl
  induction h with
  | one h => exact ⟨h.ne_nil, hfactor h⟩
  | @more w u e e' h _ ih =>
    obtain ⟨hne, hplus, hlast⟩ := ih
    have hw := (hfactor h).1
    refine ⟨List.append_ne_nil_of_right_ne_nil _ hne, ?_, ?_⟩
    · simp [hw, hplus]
    · rw [List.getLast?_append, List.getLast?_eq_some_getLast hne, Option.some_or,
        ← List.getLast?_eq_some_getLast hne]
      exact hlast

theorem term_cut : Cut [' ', '+', ' '] TermOf := by
  intro v x y z e hx h
  obtain ⟨-, hplus, hlast⟩ := TermOf.plain hx
  match x with
  | [] => rfl
  | [c] =>
    obtain ⟨rfl, -⟩ := List.cons.inj h
    exact absurd (by simp) hlast
  | c :: d :: x =>
    obtain ⟨-, h⟩ := List.cons.inj h
    obtain ⟨rfl, -⟩ := List.cons.inj h
    exact absurd (by simp) hplus

theorem term_greedy : Greedy term TermOf :=
  joined_greedy factor_greedy factor_consumes factor_cut

theorem expression_greedy : Greedy expression ExpressionOf :=
  joined_greedy term_greedy term_consumes term_cut

end ParserAlgebra.Expr
