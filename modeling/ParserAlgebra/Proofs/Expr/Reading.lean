import ParserAlgebra.Expr.Grammar
import ParserAlgebra.Proofs.Denotes

/-!
# The reading of expressions

What the grammar of expressions does on any text, without the grammar: runs of digits and of
letters, operands with operators between them, two levels of them. A parse of an expression is this
reading.
-/

namespace ParserAlgebra.Expr

open Reading (Consumes)

/-! ### Operands with a separator -/

def behind {α : Type} (sep : List Char) (f : Reading α) : Reading α :=
  ((Reading.skip sep).andThen f).map fun x => .ok x.2

def separated {α : Type} (sep : List Char) (f : Reading α) : Reading (α × List α) :=
  f.andThen ((behind sep f).atLeast 0)

def joined (sep : List Char) (join : Expr → Expr → Expr) (f : Reading Expr) : Reading Expr :=
  (separated sep f).map fun x => .ok (Grammar.foldRight join x.1 x.2)

/-! ### Expressions -/

def digits : Reading (List Char) := .word Char.isDigit

/-- The number that digits stand for, if there are not too many of them. -/
def numberOf (ds : List Char) : Except Fault Expr :=
  if Text.Decimal.maxDigits < ds.length then .error (.tooManyDigits ds.length)
  else .ok (.lit (Text.Decimal.ofDigits (ds.map fun c => c.toNat - '0'.toNat)))

def number : Reading Expr := digits.map numberOf

def letters : Reading (List Char) := .word Text.isLetter

def name : Reading Expr := letters.map fun cs => .ok (.var (String.ofList cs))

def factor : Reading Expr := number.orElse name

def term : Reading Expr := joined [' ', '*', ' '] .mul factor

def expression : Reading Expr := joined [' ', '+', ' '] .add term

theorem behind_eq_some {α : Type} {sep : List Char} {f : Reading α} {cs rest : List Char} {a : α}
    (h : behind sep f cs = .ok (some (a, rest))) :
    ∃ mid, cs = sep ++ mid ∧ f mid = .ok (some (a, rest)) := by
  obtain ⟨⟨u, b⟩, hx, hb⟩ := Reading.map_eq_some h
  cases hb
  obtain ⟨mid, hskip, hread⟩ := Reading.andThen_eq_some hx
  exact ⟨mid, Reading.skip_eq_some.1 hskip, hread⟩

theorem behind_consumes {α : Type} {sep : List Char} {f : Reading α} (hf : Consumes f) :
    Consumes (behind sep f) := by
  intro cs a rest h
  obtain ⟨mid, rfl, hread⟩ := behind_eq_some h
  obtain ⟨w, hne, rfl⟩ := hf _ _ _ hread
  exact ⟨sep ++ w, List.append_ne_nil_of_right_ne_nil sep hne, (List.append_assoc ..).symm⟩

theorem separated_consumes {α : Type} {sep : List Char} {f : Reading α} (hf : Consumes f) :
    Consumes (separated sep f) :=
  .andThen hf fun _ _ _ h =>
    ((Reading.atLeast_zero_eq_some (behind_consumes hf)).1 h).append (behind_consumes hf)

theorem joined_eq_none {sep : List Char} {join : Expr → Expr → Expr} {f : Reading Expr}
    {cs : List Char} (h : joined sep join f cs = .ok none) : f cs = .ok none :=
  Reading.andThen_eq_none (Reading.atLeast_zero_ne_none _) (Reading.map_eq_none h)

theorem factor_consumes : Consumes factor :=
  .orElse (.map (Reading.word_consumes _) _) (.map (Reading.word_consumes _) _)

theorem term_consumes : Consumes term := .map (separated_consumes factor_consumes) _

/-! ### The grammar -/

theorem contains_digits (c : Char) :
    ['0', '1', '2', '3', '4', '5', '6', '7', '8', '9'].contains c = c.isDigit := by
  rw [Bool.eq_iff_iff, List.contains_iff_mem]
  constructor
  · intro h
    simp only [List.mem_cons, List.not_mem_nil, or_false] at h
    rcases h with rfl | rfl | rfl | rfl | rfl | rfl | rfl | rfl | rfl | rfl <;> rfl
  · intro h
    have hlow : 48 ≤ c.toNat := (Char.isDigit_iff_toNat.1 h).1
    have hhigh : c.toNat ≤ 57 := (Char.isDigit_iff_toNat.1 h).2
    rw [← Char.ofNat_toNat c]
    generalize c.toNat = n at hlow hhigh
    interval_cases n <;> decide

theorem operands_map (es : List Expr) : Grammar.operands (es.map .expr) = .ok es := by
  induction es with
  | nil => rfl
  | cons e es ih =>
    rw [List.map_cons, Grammar.operands, ih]
    rfl

theorem run_apply (join : Expr → Expr → Expr) (x : Expr × List Expr) :
    Grammar.run join (.tuple [.expr x.1, .list (x.2.map .expr)]) =
      (.ok (Grammar.foldRight join x.1 x.2) : Except Fault Expr).map .expr := by
  rw [Grammar.run, operands_map]
  rfl

/-! ### The nodes of the grammar -/

/-- Operands, the first of them and then further ones, each behind the operator. -/
def operandsNode (id id₁ id₂ id₃ id₄ id₅ id₆ : Nat) (label : Label) (p : Parser) (sep : String)
    (join : Expr → Expr → Expr) : Parser :=
  .map id (.product id₁ p (.collect id₂ (.map id₃ (.product id₄
    (.map id₅ (.literal id₆ sep) (Build.always .none)) p) Build.keepSecond) (0 : Nat) .list))
    ⟨label, Grammar.run join⟩

theorem number_node : ∃ id id' label, grammar.number =
    .map id (.collect id' grammar.digit (1 : Nat) .text) ⟨label, Grammar.numeral⟩ :=
  ⟨_, _, _, rfl⟩

theorem name_node : ∃ id id' id₁ id₂ label, grammar.name =
    .map id (.both id' (.charWhere id₁ Grammar.letter "a letter")
      (.many id₂ (.charWhere id₁ Grammar.letter "a letter") (.text "") .add) .add)
      ⟨label, Grammar.named⟩ :=
  ⟨_, _, _, _, _, rfl⟩

theorem factor_node : ∃ id, grammar.factor = .orElse id grammar.number (.const grammar.name) :=
  ⟨_, rfl⟩

theorem term_node : ∃ id id₁ id₂ id₃ id₄ id₅ id₆ label, grammar.term =
    operandsNode id id₁ id₂ id₃ id₄ id₅ id₆ label grammar.factor " * " .mul :=
  ⟨_, _, _, _, _, _, _, _, rfl⟩

theorem expression_node : ∃ id id₁ id₂ id₃ id₄ id₅ id₆ label, grammar.expression =
    operandsNode id id₁ id₂ id₃ id₄ id₅ id₆ label grammar.term " + " .add :=
  ⟨_, _, _, _, _, _, _, _, rfl⟩

/-! ### What the nodes denote -/

variable {cx : Context} (ht : cx.trace = false)
include ht

theorem digit_denotes : Denotes cx 10 grammar.digit (.one Char.isDigit)
    fun c => .text (String.singleton c) := by
  have hdigit := Denotes.charIn ht '0' ['1', '2', '3', '4', '5', '6', '7', '8', '9'] 0
  simp only [contains_digits] at hdigit
  exact hdigit

theorem number_denotes : Denotes cx 12 grammar.number number .expr := by
  obtain ⟨id, id', label, hnode⟩ := number_node
  rw [hnode]
  refine .map ht (.collect_word ht (digit_denotes ht)) fun ds => ?_
  simp only [Grammar.numeral, numberOf, String.length_ofList, String.toList_ofList]
  split <;> rfl

theorem name_denotes : Denotes cx 4 grammar.name name .expr := by
  obtain ⟨id, id', id₁, id₂, label, hnode⟩ := name_node
  have hletter : Denotes cx 1 (.charWhere id₁ Grammar.letter "a letter") (.one Text.isLetter)
      fun c => .text (String.singleton c) := .ofTest ht (fun _ _ => rfl) rfl fun _ => rfl
  rw [hnode]
  exact .map ht (.oneOrMore_word ht hletter) fun cs => rfl

theorem factor_denotes : Denotes cx 13 grammar.factor factor .expr := by
  obtain ⟨id, hnode⟩ := factor_node
  rw [hnode]
  exact .orElse ht (number_denotes ht) ((name_denotes ht).mono (by omega))

theorem joined_denotes {n id id₁ id₂ id₃ id₄ id₅ id₆ : Nat} {label : Label} {p : Parser}
    {f : Reading Expr} (sep : String) (join : Expr → Expr → Expr)
    (hp : Denotes cx (n + 2) p f .expr) (hf : Consumes f) :
    Denotes cx (n + 7) (operandsNode id id₁ id₂ id₃ id₄ id₅ id₆ label p sep join)
      (joined sep.toList join f) .expr := by
  have hsep : Denotes cx (n + 2) (.map id₅ (.literal id₆ sep) (Build.always .none))
      ((Reading.skip sep.toList).map .ok) fun _ => .none :=
    .map ht (.literal ht sep) fun _ => rfl
  rw [Reading.map_ok] at hsep
  have hbehind : Denotes cx (n + 4) (.map id₃ (.product id₄
      (.map id₅ (.literal id₆ sep) (Build.always .none)) p) Build.keepSecond)
      (behind sep.toList f) .expr := .map ht (.product ht hsep hp) fun _ => rfl
  exact .map ht (.product ht (hp.mono (by omega))
    (.collect_values ht 0 (behind_consumes hf) hbehind)) (run_apply join)

theorem term_denotes : Denotes cx 18 grammar.term term .expr := by
  obtain ⟨id, id₁, id₂, id₃, id₄, id₅, id₆, label, hnode⟩ := term_node
  rw [hnode]
  exact joined_denotes ht " * " .mul (factor_denotes ht) factor_consumes

theorem expression_denotes : Denotes cx 23 grammar.expression expression .expr := by
  obtain ⟨id, id₁, id₂, id₃, id₄, id₅, id₆, label, hnode⟩ := expression_node
  rw [hnode]
  exact joined_denotes ht " + " .add ((term_denotes ht).mono (by omega)) term_consumes

/-! ### Rejections -/

/-- Why there is no expression where these characters are ahead. -/
def noLetter (cs : List Char) (i : Nat) : Reason :=
  if cs = [] then .ended "a letter" else .unmatched "a letter" i

theorem name_refuses {i : Nat} {cs : List Char} (hi : Ahead cx.text i cs)
    (hc : ∀ c ∈ cs.head?, Text.isLetter c = false) :
    Refuses cx 3 grammar.name i (noLetter cs i) i := by
  obtain ⟨id, id', id₁, id₂, label, hnode⟩ := name_node
  have hletter : Refuses cx 1 (.charWhere id₁ Grammar.letter "a letter") i (noLetter cs i) i := by
    intro k
    rw [← Nat.zero_add 1, interpret_quiet ht rfl, nodeReply, oneChar, hi.getElem?]
    cases cs with
    | nil => rfl
    | cons c cs =>
      have hfalse : Text.isLetter c = false := hc c rfl
      simp [Grammar.letter, hfalse, Run.ofExcept, noLetter]
  rw [hnode]
  exact .map ht (.both ht hletter)

theorem factor_refuses {i : Nat} {cs : List Char} (hi : Ahead cx.text i cs)
    (h : factor cs = .ok none) : Refuses cx 13 grammar.factor i (noLetter cs i) i := by
  obtain ⟨hnumber, hname⟩ := Reading.orElse_eq_none h
  have hc : ∀ c ∈ cs.head?, Text.isLetter c = false :=
    Reading.word_eq_none.1 (Reading.map_eq_none hname)
  obtain ⟨id, hnode⟩ := factor_node
  rw [hnode]
  exact .orElse ht (number_denotes ht) hi hnumber ((name_refuses ht hi hc).mono (by omega))

theorem expression_refuses {i : Nat} {cs : List Char} (hi : Ahead cx.text i cs)
    (h : expression cs = .ok none) : Refuses cx 17 grammar.expression i (noLetter cs i) i := by
  have hfactor := factor_refuses ht hi (joined_eq_none (joined_eq_none h))
  have hterm : Refuses cx 15 grammar.term i (noLetter cs i) i := by
    obtain ⟨_, _, _, _, _, _, _, _, hnode⟩ := term_node
    rw [hnode]
    exact .map ht (.product ht hfactor)
  obtain ⟨_, _, _, _, _, _, _, _, hnode⟩ := expression_node
  rw [hnode]
  exact .map ht (.product ht hterm)

/-! ### Parses -/

omit ht in
theorem parse_eq (text : String) :
    (∀ e, expression text.toList = .error e → parse false text = Run.raise e) ∧
    (expression text.toList = .ok none →
      parse false text = pure ⟨text, .reject (noLetter text.toList 0) 0⟩) ∧
    ∀ e rest, expression text.toList = .ok (some (e, rest)) →
      ∃ stop, stop + rest.length = text.length ∧
        parse false text = pure ⟨text, .accept (.expr e) stop⟩ := by
  let cx : Context := { rules := [], text := text.toList.toArray, trace := false }
  have hi : Ahead cx.text 0 text.toList := .all cx.text
  have hdepth : depth = 23 + 41 := rfl
  have hparse : parse false text = interpret cx (23 + 41) grammar.expression 0 >>= fun reply =>
      pure ⟨text, reply⟩ := by
    simp only [parse, ParserAlgebra.parse, ParserAlgebra.evaluate, evaluateFrom,
      Bool.false_eq_true, if_false, pure_bind, hdepth, cx]
  have hrun : Answers cx.text .expr (expression text.toList)
      (interpret cx (23 + 41) grammar.expression 0) := expression_denotes rfl 41 0 _ hi
  have hrefuse : expression text.toList = .ok none →
      interpret cx (17 + 47) grammar.expression 0 = pure (.reject (noLetter text.toList 0) 0) :=
    fun h => expression_refuses rfl hi h 47
  rw [hparse]
  refine ⟨fun e he => ?_, fun hnone => ?_, fun e rest he => ?_⟩
  · rw [he] at hrun
    generalize interpret cx (23 + 41) grammar.expression 0 = run at hrun
    cases hrun
    rfl
  · rw [hrefuse hnone, pure_bind]
  · rw [he] at hrun
    generalize interpret cx (23 + 41) grammar.expression 0 = run at hrun
    cases hrun with
    | @accept _ _ stop hstop =>
      have hsize := hstop.size_eq
      have htext : cx.text.size = text.length := by
        rw [← String.length_toList]
        rfl
      exact ⟨stop, by omega, by rw [pure_bind]⟩

end ParserAlgebra.Expr
