import ParserAlgebra.Proofs.Expr.Folded
import ParserAlgebra.Proofs.Expr.Recognize
import ParserAlgebra.Proofs.Expr.RoundTrip

/-!
# Arithmetic

The value of a text that is an expression, from the words of the text alone: the sum over its terms
of the product over the factors of each. Without a value the text is either no expression, or has a
name that is not bound.
-/

namespace ParserAlgebra.Expr

/-! ### Words and their values -/

def written (terms : List (List (List Char))) : List Char :=
  [' ', '+', ' '].intercalate (terms.map [' ', '*', ' '].intercalate)

/-- The text is these terms, each of them these factors. -/
def IsSumOf (terms : List (List (List Char))) (cs : List Char) : Prop :=
  terms ≠ [] ∧ (∀ factors ∈ terms, factors ≠ [] ∧ ∀ w ∈ factors, IsFactor w) ∧ cs = written terms

/-- The decimal value of digits, or what a name is bound to. -/
def factorValue? (env : List (String × Int)) (w : List Char) : Option Int :=
  if w.all Char.isDigit then some (Nat.ofDigitChars 10 w 0) else env.lookup (String.ofList w)

/-- No expression that the text begins with is longer, and there is one of this length unless it is
zero. -/
def IsLongest (cs : List Char) (n : Nat) : Prop :=
  (∀ w, w <+: cs → IsExpression w → w.length ≤ n) ∧
    (n = 0 ∨ ∃ w, w <+: cs ∧ IsExpression w ∧ w.length = n)

theorem isExpression_iff {cs : List Char} : IsExpression cs ↔ ∃ terms, IsSumOf terms cs := by
  constructor
  · rintro ⟨words, hne, hwords, rfl⟩
    have hterms : ∃ terms : List (List (List Char)), words = terms.map [' ', '*', ' '].intercalate ∧
        ∀ factors ∈ terms, factors ≠ [] ∧ ∀ w ∈ factors, IsFactor w := by
      clear hne
      induction words with
      | nil => exact ⟨[], rfl, by simp⟩
      | cons v words ih =>
        obtain ⟨factors, hfactors, hall, rfl⟩ := hwords v (by simp)
        obtain ⟨terms, rfl, hterms⟩ := ih fun u hu => hwords u (by simp [hu])
        exact ⟨factors :: terms, rfl, by simpa using ⟨⟨hfactors, hall⟩, hterms⟩⟩
    obtain ⟨terms, rfl, hterms⟩ := hterms
    exact ⟨terms, by simpa using hne, hterms, rfl⟩
  · rintro ⟨terms, hne, hterms, rfl⟩
    refine ⟨terms.map [' ', '*', ' '].intercalate, by simpa using hne, fun v hv => ?_, rfl⟩
    obtain ⟨factors, hmem, rfl⟩ := List.mem_map.1 hv
    obtain ⟨hfactors, hall⟩ := hterms factors hmem
    exact ⟨factors, hfactors, hall, rfl⟩

/-! ### Values in order -/

section

variable {α β : Type} {f : α → Except Fault β} {g : α → β} {xs : List α}

theorem mapM_ok (h : ∀ x ∈ xs, f x = .ok (g x)) : xs.mapM f = .ok (xs.map g) := by
  induction xs with
  | nil => rfl
  | cons x xs ih =>
    rw [List.mapM_cons, h x (by simp), ih fun y hy => h y (by simp [hy])]
    rfl

/-- The first failure ends the list. -/
theorem mapM_error {before after : List α} {x : α} {e : Fault}
    (hbefore : ∀ y ∈ before, f y = .ok (g y)) (hx : f x = .error e) :
    (before ++ x :: after).mapM f = .error e := by
  rw [List.mapM_append, mapM_ok hbefore, List.mapM_cons, hx]
  rfl

end

section

variable (env : List (String × Int))

def factorValue (w : List Char) : Except Fault Int :=
  match factorValue? env w with
  | some n => .ok n
  | none => .error (.unbound (String.ofList w))

def termValue (factors : List (List Char)) : Except Fault Int :=
  (factors.mapM (factorValue env)).map List.prod

def sumValue (terms : List (List (List Char))) : Except Fault Int :=
  (terms.mapM (termValue env)).map List.sum

end

variable {env : List (String × Int)} {value : List Char → Int}

theorem factorValue_ok {w : List Char} {n : Int} (h : factorValue? env w = some n) :
    factorValue env w = .ok n := by
  rw [factorValue, h]

theorem termValue_ok {factors : List (List Char)}
    (h : ∀ w ∈ factors, factorValue? env w = some (value w)) :
    termValue env factors = .ok (factors.map value).prod := by
  rw [termValue, mapM_ok fun w hw => factorValue_ok (h w hw)]
  rfl

theorem sumValue_ok {terms : List (List (List Char))}
    (h : ∀ factors ∈ terms, ∀ w ∈ factors, factorValue? env w = some (value w)) :
    sumValue env terms = .ok (terms.map fun factors => (factors.map value).prod).sum := by
  rw [sumValue, mapM_ok fun factors hfactors => termValue_ok (h factors hfactors)]
  rfl

/-- A bound word has some value. -/
theorem factorValue?_getD {w : List Char} (h : (factorValue? env w).isSome = true) :
    factorValue? env w = some ((factorValue? env w).getD 0) := by
  obtain ⟨n, hn⟩ := Option.isSome_iff_exists.1 h
  rw [hn]
  rfl

/-- Where the leftmost word without a value stands: all words of the terms before it, and of its own
term before it, have values. -/
theorem flatten_split {α : Type} {xss : List (List α)} {before after : List α} {x : α}
    (h : xss.flatten = before ++ x :: after) :
    ∃ earlier first last later, xss = earlier ++ (first ++ x :: last) :: later ∧
      before = earlier.flatten ++ first := by
  rcases List.flatten_eq_append_iff.1 h with ⟨as, bs, rfl, rfl, hbs⟩ |
    ⟨as, bs, c, cs, ds, rfl, rfl, hx⟩
  · obtain ⟨empty, last, later, rfl, hempty, -⟩ := List.flatten_eq_cons_iff.1 hbs.symm
    have hnil : empty.flatten = [] := List.flatten_eq_nil_iff.2 hempty
    exact ⟨as ++ empty, [], last, later, by simp, by simp [hnil]⟩
  · obtain ⟨rfl, -⟩ := List.cons.inj hx
    exact ⟨as, bs, cs, ds, rfl, rfl⟩

theorem sumValue_error {terms : List (List (List Char))} {before after : List (List Char)}
    {w : List Char} (hterms : terms.flatten = before ++ w :: after)
    (hbefore : ∀ v ∈ before, (factorValue? env v).isSome = true) (hw : factorValue? env w = none) :
    sumValue env terms = .error (.unbound (String.ofList w)) := by
  have hsome : ∀ v ∈ before, factorValue? env v = some ((factorValue? env v).getD 0) :=
    fun v hv => factorValue?_getD (hbefore v hv)
  have hwerror : factorValue env w = .error (.unbound (String.ofList w)) := by
    rw [factorValue, hw]
  obtain ⟨earlier, first, last, later, rfl, rfl⟩ := flatten_split hterms
  have hterm : termValue env (first ++ w :: last) = .error (.unbound (String.ofList w)) := by
    have hfirst : ∀ v ∈ first, factorValue env v = .ok ((factorValue? env v).getD 0) :=
      fun v hv => factorValue_ok (hsome v (List.mem_append_right _ hv))
    rw [termValue, mapM_error hfirst hwerror]
    rfl
  have hearlier : ∀ factors ∈ earlier, termValue env factors = .ok (factors.map _).prod :=
    fun factors hfactors => termValue_ok fun v hv => hsome v <|
      List.mem_append_left _ (List.mem_flatten.2 ⟨factors, hfactors, hv⟩)
  rw [sumValue, mapM_error hearlier hterm]
  rfl

/-! ### Trees of words -/

def Op.unit : Op → Int
  | .add => 0
  | .mul => 1

def Op.total (op : Op) (values : List Int) : Int := values.foldr op.apply op.unit

theorem total_singleton (op : Op) (n : Int) : op.total [n] = n := by
  cases op <;> simp [Op.total, Op.apply, Op.unit]

/-- A word with a tree of this value. -/
def HasTree (env : List (String × Int)) (L : Language) (w : List Char) (n : Except Fault Int) :
    Prop :=
  ∃ e, L w e ∧ e.evaluate env = n

/-- Words joined by an operator have a tree whose value is their total. -/
theorem joined_tree {ι : Type} {sep : List Char} {join : Expr → Expr → Expr} {op : Op}
    {L : Language} {text : ι → List Char} {valueOf : ι → Except Fault Int} {xs : List ι}
    (hjoin : ∀ l r, (join l r).branch? = some (op, l, r)) (hne : xs ≠ [])
    (hwords : ∀ x ∈ xs, HasTree env L (text x) (valueOf x)) :
    HasTree env (JoinedOf sep join L) (sep.intercalate (xs.map text))
      ((xs.mapM valueOf).map op.total) := by
  induction xs with
  | nil => exact absurd rfl hne
  | cons x xs ih =>
    obtain ⟨e, hx, he⟩ := hwords x (by simp)
    have hcons : (x :: xs).mapM valueOf = do return (← valueOf x) :: (← xs.mapM valueOf) :=
      List.mapM_cons
    rw [hcons]
    cases xs with
    | nil =>
      refine ⟨e, by simpa using .one hx, ?_⟩
      rw [he, List.mapM_nil]
      rcases valueOf x with f | n
      · rfl
      · exact congrArg Except.ok (total_singleton op n).symm
    | cons y ys =>
      obtain ⟨e', hrest, he'⟩ := ih (by simp) fun z hz => hwords z (by simp [hz])
      refine ⟨join e e', ?_, ?_⟩
      · rw [List.map_cons, List.map_cons, intercalate_cons]
        exact .more hx hrest
      · rw [evaluate_eq, folded_branch (hjoin e e'), ← evaluate_eq, ← evaluate_eq, he, he']
        generalize (y :: ys).mapM valueOf = rest
        rcases valueOf x with f | n
        · rfl
        · rcases rest with f | ns <;> rfl

theorem factor_tree {w : List Char} (hw : IsFactor w) (hfit : RunsFit w) :
    HasTree env FactorOf w (factorValue env w) := by
  obtain ⟨hne, hdigits | hletters⟩ := hw
  · refine ⟨_, .number hne hdigits (hfit w List.infix_rfl hdigits), ?_⟩
    have hall : w.all Char.isDigit = true := List.all_eq_true.2 hdigits
    rw [factorValue, factorValue?, if_pos hall, evaluate_eq, folded, leafValue,
      Text.Decimal.ofDigits, List.foldl_map]
    rfl
  · refine ⟨_, .name hne hletters, ?_⟩
    have hall : ¬w.all Char.isDigit = true := by
      obtain ⟨c, hc⟩ := List.exists_mem_of_ne_nil w hne
      intro h
      have hfalse := isLetter_of_isDigit (List.all_eq_true.1 h c hc)
      rw [hletters c hc] at hfalse
      cases hfalse
    rw [factorValue, factorValue?, if_neg hall, evaluate_eq]
    rfl

theorem infix_intercalate {sep v : List Char} {words : List (List Char)} (h : v ∈ words) :
    v <:+: sep.intercalate words := by
  induction words with
  | nil => simp at h
  | cons u words ih =>
    cases words with
    | nil =>
      rw [List.mem_singleton] at h
      simp [h]
    | cons t words =>
      rw [intercalate_cons]
      rcases List.mem_cons.1 h with rfl | h
      · exact List.infix_append_of_infix_left List.infix_append_left
      · exact List.infix_append_of_infix_right (ih h)

theorem term_tree {factors : List (List Char)}
    (hfit : RunsFit ([' ', '*', ' '].intercalate factors)) (hne : factors ≠ [])
    (hall : ∀ w ∈ factors, IsFactor w) :
    HasTree env TermOf ([' ', '*', ' '].intercalate factors) (termValue env factors) := by
  have htree : HasTree env TermOf ([' ', '*', ' '].intercalate (factors.map id))
      ((factors.mapM (factorValue env)).map Op.mul.total) :=
    joined_tree (fun _ _ => rfl) hne fun w hw =>
      factor_tree (hall w hw) (hfit.of_infix (infix_intercalate hw))
  rw [List.map_id] at htree
  exact htree

theorem sum_tree {terms : List (List (List Char))} {cs : List Char} (hfit : RunsFit cs)
    (h : IsSumOf terms cs) : HasTree env ExpressionOf cs (sumValue env terms) := by
  obtain ⟨hne, hterms, rfl⟩ := h
  have htree : HasTree env ExpressionOf (written terms)
      ((terms.mapM (termValue env)).map Op.add.total) := by
    refine joined_tree (fun _ _ => rfl) hne fun factors hfactors => ?_
    obtain ⟨hfactorsne, hall⟩ := hterms factors hfactors
    exact term_tree (hfit.of_infix (infix_intercalate (List.mem_map_of_mem hfactors))) hfactorsne
      hall
  exact htree

/-! ### Values of texts -/

theorem evaluateText_of_parse {text : String} {e : Expr} {m : Memory}
    (h : (parse false text).exec m = (.ok ⟨text, .accept (.expr e) text.length⟩, m)) :
    (evaluateText text env).exec m = (Run.ofExcept (e.evaluate env)).exec m := by
  have hparse : (ParserAlgebra.parse [] depth {} grammar.expression text).exec m =
      (.ok ⟨text, .accept (.expr e) text.length⟩, m) := h
  simp [evaluateText, parseValue, Run.exec_bind, hparse, Result.value]

theorem evaluateText_of_tree {text : String} {n : Except Fault Int}
    (h : HasTree env ExpressionOf text.toList n) (m : Memory) :
    (evaluateText text env).exec m = (Run.ofExcept n).exec m := by
  obtain ⟨e, he, rfl⟩ := h
  exact evaluateText_of_parse (parse_expressionOf he m)

theorem isLongest_zero {cs : List Char} (hfit : RunsFit cs) (h : expression cs = .ok none) :
    IsLongest cs 0 := by
  refine ⟨fun w hw hexpr => ?_, .inl rfl⟩
  obtain ⟨e, he⟩ := expressionOf (hfit.of_infix hw.isInfix) hexpr
  obtain ⟨t, rfl⟩ := hw
  exact absurd he (expression_greedy.complete h)

theorem isLongest_of_read {cs rest : List Char} {e : Expr} (hfit : RunsFit cs)
    (h : expression cs = .ok (some (e, rest))) : IsLongest cs (cs.length - rest.length) := by
  obtain ⟨w, hcs, hw⟩ := expression_greedy.reads h
  have hlen := congrArg List.length hcs
  rw [List.length_append] at hlen
  refine ⟨fun v hv hexpr => ?_, .inr ⟨w, ⟨rest, hcs.symm⟩, isExpression_of hw, by omega⟩⟩
  obtain ⟨e', he'⟩ := expressionOf (hfit.of_infix hv.isInfix) hexpr
  obtain ⟨t, ht⟩ := hv
  have hle := expression_greedy.longest h ht.symm he'
  have hlen' := congrArg List.length ht
  rw [List.length_append] at hlen'
  omega

/-- A text that is no expression is rejected where its longest expression ends. -/
theorem evaluateText_noParse {text : String} (hfit : RunsFit text.toList)
    (h : ¬IsExpression text.toList) (env : List (String × Int)) (m : Memory) :
    ∃ e, (evaluateText text env).exec m = (.error (.fault (.noParse e)), m) ∧
      IsLongest text.toList e.start := by
  obtain ⟨-, hreject, haccept⟩ := parse_eq text
  rcases hread : expression text.toList with e | _ | ⟨e, rest⟩
  · exact absurd hread (expression_ne_error hfit e)
  · have hparse : ParserAlgebra.parse [] depth {} grammar.expression text =
        pure ⟨text, .reject (noLetter text.toList 0) 0⟩ := hreject hread
    refine ⟨.at text defaultPath (noLetter text.toList 0) 0, ?_, isLongest_zero hfit hread⟩
    simp [evaluateText, parseValue, Run.exec_bind, hparse, Result.value]
  · obtain ⟨stop, hstop, hrun⟩ := haccept e rest hread
    have hparse : ParserAlgebra.parse [] depth {} grammar.expression text =
        pure ⟨text, .accept (.expr e) stop⟩ := hrun
    have hlongest := isLongest_of_read hfit hread
    have hlt : stop < text.length := by
      rcases Nat.lt_or_ge stop text.length with hlt | hge
      · exact hlt
      · -- Nothing is left, so the whole text is an expression.
        obtain ⟨w, hcs, hw⟩ := expression_greedy.reads hread
        have hnil : rest = [] := List.length_eq_zero_iff.1 (by omega)
        rw [hnil, List.append_nil] at hcs
        exact absurd (hcs ▸ isExpression_of hw) h
    have hne : stop ≠ text.length := hlt.ne
    rw [← String.length_toList] at hlt hstop
    have hstart : text.toList.length - rest.length = stop := by omega
    rw [hstart] at hlongest
    obtain ⟨c, hc⟩ : ∃ c, text.toList[stop]? = some c := ⟨_, List.getElem?_eq_getElem hlt⟩
    let why : Reason := .trailing c (Text.feedDistance text.toList stop)
    refine ⟨.at text defaultPath why stop, ?_, hlongest⟩
    simp [evaluateText, parseValue, Run.exec_bind, hparse, Result.value, hne, hc, why]

/-- A text that is a sum of products has the value of its words, or the leftmost word without a
value is reported. Any other text is rejected behind its longest expression. -/
theorem evaluateText_arithmetic (text : String) (env : List (String × Int)) (m : Memory)
    (hfit : RunsFit text.toList) :
    (∀ terms, IsSumOf terms text.toList →
      (∀ value : List Char → Int, (∀ w ∈ terms.flatten, factorValue? env w = some (value w)) →
        (evaluateText text env).exec m =
          (.ok (terms.map fun factors => (factors.map value).prod).sum, m)) ∧
      ∀ before w after, terms.flatten = before ++ w :: after →
        (∀ v ∈ before, (factorValue? env v).isSome = true) → factorValue? env w = none →
        (evaluateText text env).exec m = (.error (.fault (.unbound (String.ofList w))), m)) ∧
    ((¬∃ terms, IsSumOf terms text.toList) →
      ∃ e, (evaluateText text env).exec m = (.error (.fault (.noParse e)), m) ∧
        IsLongest text.toList e.start) := by
  refine ⟨fun terms hterms => ?_, fun hnone => ?_⟩
  · have htree : HasTree env ExpressionOf text.toList (sumValue env terms) := sum_tree hfit hterms
    refine ⟨fun value hvalue => ?_, fun before w after hflat hbefore hw => ?_⟩
    · rw [evaluateText_of_tree htree, sumValue_ok fun factors hfactors w hw =>
        hvalue w (List.mem_flatten.2 ⟨factors, hfactors, hw⟩)]
      rfl
    · rw [evaluateText_of_tree htree, sumValue_error hflat hbefore hw]
      rfl
  · exact evaluateText_noParse hfit (fun h => hnone (isExpression_iff.1 h)) env m

theorem evaluateText_precedence : RunsFit "2 * x + 3".toList ∧
    IsSumOf [[['2'], ['x']], [['3']]] "2 * x + 3".toList ∧
    (evaluateText "2 * x + 3" [("x", 5)]).exec freshMemory = (.ok 13, freshMemory) ∧
    (evaluateText "2 * x + 3" []).exec freshMemory =
      (.error (.fault (.unbound "x")), freshMemory) := by
  have hfit : RunsFit "2 * x + 3".toList := fun ds hds _ => hds.length_le.trans (by decide)
  have hx : IsFactor ['x'] := ⟨by simp, .inr (List.all_eq_true.1 rfl)⟩
  have hdigit : ∀ c : Char, c.isDigit = true → IsFactor [c] :=
    fun c hc => ⟨by simp, .inl (by simpa)⟩
  have hsum : IsSumOf [[['2'], ['x']], [['3']]] "2 * x + 3".toList :=
    ⟨by simp, by simp [hx, hdigit '2' rfl, hdigit '3' rfl], rfl⟩
  have hbound := ((evaluateText_arithmetic "2 * x + 3" [("x", 5)] freshMemory hfit).1 _ hsum).1
  have hfree := ((evaluateText_arithmetic "2 * x + 3" [] freshMemory hfit).1 _ hsum).2
  refine ⟨hfit, hsum, ?_, hfree [['2']] ['x'] [['3']] rfl (by simp [factorValue?]) rfl⟩
  refine hbound (fun w => (factorValue? [("x", 5)] w).getD 0) fun w hw => factorValue?_getD ?_
  simp only [List.flatten_cons, List.flatten_nil, List.append_nil, List.cons_append,
    List.nil_append, List.mem_cons, List.not_mem_nil, or_false] at hw
  rcases hw with rfl | rfl | rfl <;> rfl

end ParserAlgebra.Expr
