import ParserAlgebra.Proofs.Cells
import ParserAlgebra.Proofs.Expr.Recognize
import ParserAlgebra.Proofs.Optimizer.Preserve

/-!
# Expressions under all settings

Neither optimizing the grammar of expressions nor tracing it changes what a parse ends with, at the
depth that parses of expressions are given. The digits become one test of membership; the one choice
that is left keeps its right side for later, and what it is then made into runs as the names do.
-/

namespace ParserAlgebra.Expr

open Run (Lockstep)

/-! ### Parsers that run alike -/

def SameRuns (q p : Parser) : Prop := ∀ cx n, interpret cx n q = interpret cx n p

/-- Whatever was kept runs as the names do. -/
def KeepsNames (m : Memory) : Prop := m.Holds fun q => SameRuns q grammar.name

/-- From this depth on the first parser ends as the second one, if only forms of the names are
kept; the second one may run from any memory. -/
def Mimics (cx : Context) (depth : Nat) (q p : Parser) : Prop :=
  ∀ n i, depth ≤ n → Lockstep (fun m _ => KeepsNames m) (Reply.Meets Eq Eq) (interpret cx n q i)
    (interpret cx n p i)

namespace Mimics

variable {cx : Context} {depth depth' id id' : Nat} {p p' q q' : Parser}

theorem mono (h : Mimics cx depth q p) (hd : depth ≤ depth') : Mimics cx depth' q p :=
  fun n i hn => h n i (hd.trans hn)

variable (ht : cx.trace = false)
include ht

theorem of_node (hq : q.unknownTag? = none) (hp : p.unknownTag? = none)
    (h : ∀ n i, depth ≤ n → Lockstep (fun m _ => KeepsNames m) (Reply.Meets Eq Eq)
      (nodeReply cx n (interpret cx n) q i) (nodeReply cx n (interpret cx n) p i)) :
    Mimics cx (depth + 1) q p := by
  intro n i hn
  obtain ⟨k, rfl⟩ : ∃ k, n = k + 1 := ⟨n - 1, by omega⟩
  rw [interpret_succ ht hq, interpret_succ ht hp]
  exact h k i (by omega)

theorem literal (text : String) : Mimics cx 1 (.literal id' text) (.literal id text) :=
  of_node ht rfl rfl fun _ _ _ => .pure (.refl _)

theorem charWhere (predicate : Predicate) (description : String) :
    Mimics cx 1 (.charWhere id' predicate description) (.charWhere id predicate description) := by
  refine of_node ht rfl rfl fun n i _ => ?_
  simp only [nodeReply, oneChar]
  cases cx.text[i]? with
  | none => exact .pure (.refl _)
  | some c =>
    refine .ofExcept_bind fun holds _ => ?_
    cases holds <;> exact .pure (.refl _)

theorem map {fn : Transform} (h : Mimics cx depth q p) :
    Mimics cx (depth + 1) (.map id' q fn) (.map id p fn) :=
  of_node ht rfl rfl fun n i hn => .andThen (h n i hn) fun _ _ _ hj =>
    .ofExcept_bind fun w _ => .pure (.accept w hj)

theorem product (h : Mimics cx depth q p) (h' : Mimics cx depth q' p') :
    Mimics cx (depth + 1) (.product id' q q') (.product id p p') :=
  of_node ht rfl rfl fun n i hn => .andThen (h n i hn) fun v j j' hj => by
    subst hj
    exact .andThen (h' n j hn) fun w k _ hk => .pure (.accept _ hk)

theorem both {combine : Combiner} (h : Mimics cx depth q p) (h' : Mimics cx depth q' p') :
    Mimics cx (depth + 1) (.both id' q q' combine) (.both id p p' combine) :=
  of_node ht rfl rfl fun n i hn => .andThen (h n i hn) fun v j j' hj => by
    subst hj
    exact .andThen (h' n j hn) fun w k _ hk => .ofExcept_bind fun u _ => .pure (.accept u hk)

omit ht in
theorem greedy {σ : Type} (h : Mimics cx depth q p) (append : σ → Value → Except Fault σ)
    (budget : Nat) (state : σ) {n : Nat} (hn : depth ≤ n) (i : Nat) :
    Lockstep (fun m _ => KeepsNames m) Eq
      (ParserAlgebra.greedy (interpret cx n q) append budget state i)
      (ParserAlgebra.greedy (interpret cx n p) append budget state i) := by
  have hone : ∀ j j', j = j' → Lockstep (fun m _ => KeepsNames m) (Reply.Meets Eq Eq)
      (interpret cx n q j) (interpret cx n p j') := fun j j' hj => by
    subst hj
    exact h n j hn
  exact (Lockstep.greedy (fun _ _ _ _ hi hj => by rw [hi, hj]) hone append budget state rfl).mono
    fun r r' ⟨hstate, hstop⟩ => Prod.ext hstate hstop

theorem many {neutral : Value} {combine : Combiner} (h : Mimics cx depth q p) :
    Mimics cx (depth + 1) (.many id' q neutral combine) (.many id p neutral combine) :=
  of_node ht rfl rfl fun n i hn => .bind (h.greedy combine.apply _ neutral hn i) fun r _ hr => by
    subst hr
    exact .pure (.refl _)

theorem collect {minimum : Int} {accumulator : Accumulator} (h : Mimics cx depth q p) :
    Mimics cx (depth + 1) (.collect id' q minimum accumulator)
      (.collect id p minimum accumulator) := by
  refine of_node ht rfl rfl fun n i hn => .ofExcept_bind fun start _ =>
    .bind (h.greedy (appendCounted accumulator) _ (start, 0) hn i) fun r _ hr => ?_
  subst hr
  dsimp only
  split
  · exact .pure (.refl _)
  · exact .ofExcept_bind fun v _ => .pure (.refl _)

end Mimics

/-! ### Names -/

namespace SameRuns

variable {id id' : Nat} {p q p' q' : Parser}

theorem of_node (htag : q.tag = p.tag) (hunknown : q.unknownTag? = p.unknownTag?)
    (h : ∀ cx n i, nodeReply cx n (interpret cx n) q i = nodeReply cx n (interpret cx n) p i) :
    SameRuns q p := by
  intro cx n
  cases n with
  | zero => rfl
  | succ n =>
    funext i
    simp only [interpret, step, htag, hunknown, h]

theorem map {fn : Transform} (h : SameRuns q p) : SameRuns (.map id' q fn) (.map id p fn) :=
  of_node rfl rfl fun cx n i => by simp only [nodeReply, h cx n]

theorem both {combine : Combiner} (h : SameRuns q p) (h' : SameRuns q' p') :
    SameRuns (.both id' q q' combine) (.both id p p' combine) :=
  of_node rfl rfl fun cx n i => by simp only [nodeReply, h cx n, h' cx n]

theorem many {neutral : Value} {combine : Combiner} (h : SameRuns q p) :
    SameRuns (.many id' q neutral combine) (.many id p neutral combine) :=
  of_node rfl rfl fun cx n i => by simp only [nodeReply, h cx n]

end SameRuns

/-- What optimizing makes of the names runs as they do. -/
theorem optimizeWith_name (call : Thunk → Run Parser) (n : Nat) (m : Memory) :
    ∃ q next, (optimizeWith call n grammar.name).exec m = (.ok q, { m with nextId := next }) ∧
      SameRuns q grammar.name := by
  obtain ⟨id, id', id₁, id₂, label, hname⟩ := name_node
  rw [hname]
  exact ⟨_, _, rfl, .map (.both (fun _ _ => rfl) (.many fun _ _ => rfl))⟩

/-- The names that wait in a cell are there, optimized, once they are asked for. -/
theorem call_names (rules : Rules) (cell n : Nat) :
    Lockstep (fun m _ => KeepsNames m) (fun q p => SameRuns q grammar.name ∧ p = grammar.name)
      ((Thunk.optimized cell (.const grammar.name)).call rules (n + 2))
      ((Thunk.const grammar.name).call rules (n + 2)) := by
  intro m m' hm
  have hcall : (Thunk.optimized cell (.const grammar.name)).call rules (n + 2) =
      Run.once (.right cell) (do
        let p ← (Thunk.const grammar.name).call rules (n + 1)
        optimizeWith (Thunk.call rules (n + 1)) (n + 1) p) := rfl
  rw [hcall]
  -- Only the first call optimizes the names; the later ones find them in the cell.
  cases hc : m.parserIn? (.right cell) with
  | some q =>
    rw [Run.exec_once_of_some _ hc]
    exact ⟨hm, .ok ⟨hm _ q hc, rfl⟩⟩
  | none =>
    obtain ⟨q, next, hq, hsame⟩ := optimizeWith_name (Thunk.call rules (n + 1)) (n + 1) m
    have hmake : (do
        let p ← (Thunk.const grammar.name).call rules (n + 1)
        optimizeWith (Thunk.call rules (n + 1)) (n + 1) p).exec m =
          (.ok q, { m with nextId := next }) := hq
    rw [Run.exec_once_of_none hc hmake]
    have hkept : KeepsNames { m with nextId := next } := hm
    exact ⟨Memory.Holds.fill hkept hsame, .ok ⟨hsame, rfl⟩⟩

theorem Mimics.name {cx : Context} (ht : cx.trace = false) :
    Mimics cx 4 grammar.name grammar.name := by
  obtain ⟨id, id', id₁, id₂, label, hname⟩ := name_node
  rw [hname]
  have hletter : Mimics cx 1 (.charWhere id₁ Grammar.letter "a letter")
      (.charWhere id₁ Grammar.letter "a letter") := .charWhere ht _ _
  exact .map ht (.both ht (hletter.mono (by omega)) (.many ht hletter))

theorem Mimics.orElse {cx : Context} (ht : cx.trace = false) {depth id id' cell : Nat}
    {p q : Parser} (h : Mimics cx depth q p) (hd : 4 ≤ depth) :
    Mimics cx (depth + 1) (.orElse id' q (.optimized cell (.const grammar.name)))
      (.orElse id p (.const grammar.name)) := by
  refine of_node ht rfl rfl fun n i hn => .orElse (h n i hn) ?_
  -- The names have depth to spare, so that the call of their thunk has some too.
  obtain ⟨k, rfl⟩ : ∃ k, n = k + 4 := ⟨n - 4, by omega⟩
  refine .bind (call_names cx.rules cell (k + 2)) fun a b ⟨ha, hb⟩ => ?_
  rw [hb, ha cx (k + 4)]
  exact Mimics.name ht (k + 4) i (by omega)

/-! ### Digits -/

/-- From this depth on runs of the parser look at one character. -/
def Tests (cx : Context) (depth : Nat) (p : Parser) (cs : List Char) (words : String) : Prop :=
  ∀ k i, interpret cx (depth + k) p i = pure (Chain.reply cx.text i cs words)

theorem Tests.char {cx : Context} (ht : cx.trace = false) (id : Nat) (c : Char) :
    Tests cx 1 (.char id c) [c] (Parser.describe c) := by
  intro k i
  rw [Nat.add_comm, interpret_succ ht rfl]
  exact oneChar_eq_reply fun d => by simp [beq_eq_decide]

theorem Tests.orElse {cx : Context} (ht : cx.trace = false) {n id id' : Nat} {p : Parser}
    {cs : List Char} {words : String} (h : Tests cx (n + 1) p cs words) (c : Char) :
    Tests cx (n + 2) (.orElse id p (.const (.char id' c))) (cs ++ [c]) (Parser.describe c) := by
  intro k i
  have hn : n + 2 + k = n + 1 + k + 1 := by omega
  have hchar : interpret cx (n + 1 + k) (.char id' c) i =
      pure (Chain.reply cx.text i [c] (Parser.describe c)) := by
    rw [show n + 1 + k = 1 + (n + k) by omega]
    exact Tests.char ht id' c (n + k) i
  have hcall : (Thunk.const (.char id' c)).call cx.rules (n + 1 + k) = pure (.char id' c) := by
    rw [show n + 1 + k = n + k + 1 by omega]
    rfl
  rw [hn, interpret_succ ht rfl, nodeReply, h, hcall, pure_bind, hchar,
    Chain.reply_append cx.text i cs [c] words]
  cases Chain.reply cx.text i cs words <;> rfl

theorem Tests.foldl {cx : Context} (ht : cx.trace = false) (rest : List Char) {n : Nat}
    {p : Parser} {cs : List Char} {c : Char} (next : Nat)
    (h : Tests cx (n + 1) p cs (Parser.describe c)) :
    Tests cx (n + 1 + rest.length)
      ((rest.foldlM (fun p d => do Build.orElse p (← Build.char d)) p : Build Parser) next).1
      (cs ++ rest) (Parser.describe (rest.getLastD c)) := by
  induction rest generalizing n p cs c next with
  | nil =>
    rw [List.append_nil]
    exact h
  | cons d rest ih =>
    have hboth : Tests cx (n + 2) (.orElse (next + 1) p (.const (.char next d))) (cs ++ [d])
        (Parser.describe d) := h.orElse ht d
    have hrest := ih (next + 2) hboth
    have hlen : n + 1 + (d :: rest).length = n + 1 + 1 + rest.length := by
      rw [List.length_cons]
      omega
    rw [hlen, List.append_cons, List.getLastD_cons]
    exact hrest

theorem digit_tests {cx : Context} (ht : cx.trace = false) :
    Tests cx 10 grammar.digit ['0', '1', '2', '3', '4', '5', '6', '7', '8', '9']
      (Parser.describe '9') :=
  .foldl ht ['1', '2', '3', '4', '5', '6', '7', '8', '9'] 1 (.char ht 0 '0')

/-- A test of membership mimics the choice that looks at the same character. -/
theorem Mimics.memberOf {cx : Context} (ht : cx.trace = false) {depth id : Nat} {p : Parser}
    {cs : List Char} {words : String} (h : Tests cx depth p cs words) (hd : 1 ≤ depth) :
    Mimics cx depth (.charWhere id (.memberOf cs) words) p := by
  intro n i hn
  obtain ⟨k, rfl⟩ : ∃ k, n = depth + k := ⟨n - depth, by omega⟩
  obtain ⟨j, hj⟩ : ∃ j, depth + k = j + 1 := ⟨depth + k - 1, by omega⟩
  have hone : interpret cx (depth + k) (.charWhere id (.memberOf cs) words) i =
      pure (Chain.reply cx.text i cs words) := by
    rw [hj, interpret_succ ht rfl]
    exact oneChar_eq_reply fun _ => rfl
  rw [hone, h]
  exact .pure (.refl _)

/-! ### Optimizing the grammar -/

/-- Optimizing the parser fills no cell, and what it makes mimics the parser. -/
def Copied (cx : Context) (call : Thunk → Run Parser) (n depth : Nat) (p : Parser) : Prop :=
  ∀ m, ∃ q next, (optimizeWith call n p).exec m = (.ok q, { m with nextId := next }) ∧
    Mimics cx depth q p

namespace Copied

variable {cx : Context} {call : Thunk → Run Parser} {n depth depth' id : Nat} {p p' : Parser}
  (ht : cx.trace = false)
include ht

theorem literal (text : String) : Copied cx call n 1 (.literal id text) := fun m =>
  ⟨_, m.nextId, rfl, .literal ht text⟩

theorem map {fn : Transform} (h : Copied cx call n depth p) :
    Copied cx call n (depth + 1) (.map id p fn) := by
  intro m
  obtain ⟨q, next, hq, hmimics⟩ := h m
  exact ⟨.map next q fn, next + 1, by rw [optimizeWith, Run.exec_bind, hq]; rfl, .map ht hmimics⟩

theorem collect {minimum : Int} {accumulator : Accumulator} (h : Copied cx call n depth p) :
    Copied cx call n (depth + 1) (.collect id p minimum accumulator) := by
  intro m
  obtain ⟨q, next, hq, hmimics⟩ := h m
  exact ⟨.collect next q minimum accumulator, next + 1,
    by rw [optimizeWith, Run.exec_bind, hq]; rfl, .collect ht hmimics⟩

theorem product (h : Copied cx call n depth p) (h' : Copied cx call n depth p') :
    Copied cx call n (depth + 1) (.product id p p') := by
  intro m
  obtain ⟨q, next, hq, hmimics⟩ := h m
  obtain ⟨q', next', hq', hmimics'⟩ := h' { m with nextId := next }
  refine ⟨.product next' q q', next' + 1, ?_, .product ht hmimics hmimics'⟩
  rw [optimizeWith, Run.exec_bind, hq]
  dsimp only
  rw [Run.exec_bind, hq']
  rfl

omit ht in
theorem mono (h : Copied cx call n depth p) (hd : depth ≤ depth') : Copied cx call n depth' p := by
  intro m
  obtain ⟨q, next, hq, hmimics⟩ := h m
  exact ⟨q, next, hq, hmimics.mono hd⟩

theorem digit : Copied cx (Thunk.call [] (n + 11)) (n + 11) 10 grammar.digit := fun m =>
  ⟨_, m.nextId + 1, rfl, .memberOf ht (digit_tests ht) (by omega)⟩

/-- A choice whose left side is no character and no choice. -/
theorem orElse {source : Parser} {fn : Transform} {id' : Nat}
    (h : Copied cx call (n + 2) depth (.map id' source fn)) (hd : 4 ≤ depth) :
    Copied cx call (n + 2) (depth + 1) (.orElse id (.map id' source fn) (.const grammar.name)) := by
  intro m
  have hleaves : Chain.leaves call (n + 2) (.orElse id (.map id' source fn) (.const grammar.name))
      [] = pure (none, [id]) := by
    simp [Chain.leaves]
  have hcell : (Run.build Build.fresh).exec m = (.ok m.nextId, { m with nextId := m.nextId + 1 }) :=
    rfl
  obtain ⟨q, next, hq, hmimics⟩ := h { m with nextId := m.nextId + 1 }
  refine ⟨.orElse next q (.optimized m.nextId (.const grammar.name)), next + 1, ?_,
    .orElse ht hmimics hd⟩
  rw [optimizeWith, hleaves, pure_bind]
  dsimp only
  rw [Run.exec_bind, hcell]
  dsimp only
  rw [Run.exec_bind, hq]
  rfl

theorem operandsNode {id₁ id₂ id₃ id₄ id₅ id₆ : Nat} {label : Label} {sep : String}
    {join : Expr → Expr → Expr} (h : Copied cx call n depth p) (hd : 2 ≤ depth) :
    Copied cx call n (depth + 5) (operandsNode id id₁ id₂ id₃ id₄ id₅ id₆ label p sep join) := by
  have hsep : Copied cx call n depth (.map id₅ (.literal id₆ sep) (Build.always .none)) :=
    (map ht (literal ht sep)).mono hd
  exact map ht (product ht (h.mono (by omega)) (collect ht (map ht (product ht hsep h))))

theorem factor : Copied cx (Thunk.call [] (n + 11)) (n + 11) 13 grammar.factor := by
  obtain ⟨_, hfactor⟩ := factor_node
  obtain ⟨_, _, _, hnumber⟩ := number_node
  rw [hfactor, hnumber]
  exact orElse ht (map ht (collect ht (digit ht))) (by omega)

theorem expression : Copied cx (Thunk.call [] (n + 11)) (n + 11) 23 grammar.expression := by
  obtain ⟨_, _, _, _, _, _, _, _, hterm⟩ := term_node
  obtain ⟨_, _, _, _, _, _, _, _, hexpression⟩ := expression_node
  rw [hexpression, hterm]
  exact operandsNode ht (operandsNode ht (factor ht) (by omega)) (by omega)

end Copied

/-! ### Parses -/

theorem KeepsNames.of_empty {m : Memory} (h : m.filled = []) : KeepsNames m := by
  intro cell q hq
  rw [Memory.parserIn?, h] at hq
  cases hq

theorem optimize_expression (text : Array Char) (m : Memory) : ∃ q next,
    (optimize [] depth grammar.expression).exec m = (.ok q, { m with nextId := next }) ∧
      Mimics ⟨[], text, false⟩ 23 q grammar.expression := by
  have hdepth : depth = 53 + 11 := rfl
  rw [hdepth]
  exact Copied.expression rfl m

theorem exec_parse_optimized {rules : Rules} {n : Nat} {trace : Bool} {p q : Parser}
    {input : String} {m m' : Memory} (h : (optimize rules n p).exec m = (.ok q, m')) :
    (ParserAlgebra.parse rules n { optimized := true, trace } p input).exec m =
      (ParserAlgebra.evaluate rules n q input trace).exec m' := by
  rw [ParserAlgebra.parse, if_pos rfl, Run.exec_bind, h]

theorem parse_optimized (text : String) {m : Memory} (hm : m.filled = []) :
    ((parse true text).exec m).1 = ((parse false text).exec m).1 := by
  obtain ⟨q, next, hq, hmimics⟩ := optimize_expression text.toList.toArray m
  have hrun : Lockstep (fun m _ => KeepsNames m) Eq (ParserAlgebra.evaluate [] depth q text false)
      (ParserAlgebra.evaluate [] depth grammar.expression text false) :=
    .bind (hmimics depth 0 (by decide)) fun _ _ hr => .pure (by rw [hr.eq])
  have hnames : KeepsNames { m with nextId := next } := .of_empty hm
  have hplain : parse false text =
      ParserAlgebra.evaluate [] depth grammar.expression text false := by
    rw [parse, ParserAlgebra.parse, if_neg Bool.false_ne_true, pure_bind]
  rw [hplain, parse, exec_parse_optimized hq]
  exact (hrun _ m hnames).2.eq

/-- What a parse of an expression ends with does not depend on the settings. -/
theorem parse_settings (settings : Settings) (text : String) {m : Memory} (hm : m.filled = []) :
    ((ParserAlgebra.parse [] depth settings grammar.expression text).exec m).1 =
      ((parse false text).exec m).1 := by
  obtain ⟨optimized, trace⟩ := settings
  have htrace := (Lockstep.of_plain [] (fun kept => parse_plain kept optimized trace false depth
    grammar.expression text) m m rfl).2.eq
  rw [htrace]
  cases optimized with
  | false => rfl
  | true => exact parse_optimized text hm

theorem parse_ends {text : String} (hfit : RunsFit text.toList) :
    (∃ e stop, stop ≤ text.length ∧ parse false text = pure ⟨text, .accept (.expr e) stop⟩) ∨
      ∃ why, parse false text = pure ⟨text, .reject why 0⟩ := by
  obtain ⟨-, hreject, haccept⟩ := parse_eq text
  rcases hread : expression text.toList with f | _ | ⟨e, rest⟩
  · exact absurd hread (expression_ne_error hfit f)
  · exact .inr ⟨_, hreject hread⟩
  · obtain ⟨stop, hstop, hparse⟩ := haccept e rest hread
    exact .inl ⟨e, stop, by omega, hparse⟩

/-- The value of a text under any settings, from the parse without any. -/
theorem parseValue_exec (settings : Settings) (text path : String) : ∃ m,
    (parseValue [] depth settings grammar.expression text path false).exec freshMemory =
      match ((parse false text).exec freshMemory).1 with
      | .ok r => (Run.ofExcept (r.value path false)).exec m
      | .error halt => (.error halt, m) := by
  rw [← parse_settings settings text rfl, parseValue, Run.exec_bind]
  rcases (ParserAlgebra.parse [] depth settings grammar.expression text).exec freshMemory
    with ⟨halt | r, m⟩
  · exact ⟨m, rfl⟩
  · exact ⟨m, rfl⟩

/-- A whole text is given its tree, any other is rejected; the settings do not matter. -/
theorem parseValue_ends {text : String} (hfit : RunsFit text.toList) (settings : Settings)
    (path : String) :
    (∃ e m, (parseValue [] depth settings grammar.expression text path false).exec freshMemory =
        (.ok (.expr e), m) ∧ parse false text = pure ⟨text, .accept (.expr e) text.length⟩) ∨
      ∃ error m, (parseValue [] depth settings grammar.expression text path false).exec
        freshMemory = (.error (.fault (.noParse error)), m) := by
  obtain ⟨m, hm⟩ := parseValue_exec settings text path
  rcases parse_ends hfit with ⟨e, stop, hstop, hparse⟩ | ⟨why, hparse⟩
  · rw [hparse] at hm
    by_cases hend : stop = text.length
    · subst hend
      exact .inl ⟨e, m, by simpa [Result.value] using hm, hparse⟩
    · have hlt : stop < text.toList.length := by
        rw [String.length_toList]
        omega
      simp only [Run.exec_pure, Result.value, Bool.false_or, beq_iff_eq, hend, if_false,
        List.getElem?_eq_getElem hlt] at hm
      exact .inr ⟨_, m, hm⟩
  · rw [hparse] at hm
    exact .inr ⟨_, m, hm⟩

/-- A number that is too long ends the parse, whatever the settings. -/
theorem parseValue_tooManyDigits {text : String} (hdigits : ∀ c ∈ text.toList, c.isDigit = true)
    (hlong : Text.Decimal.maxDigits < text.length) (settings : Settings) (path : String) :
    ∃ m, (parseValue [] depth settings grammar.expression text path false).exec freshMemory =
      (.error (.fault (.tooManyDigits text.length)), m) := by
  have hne : text.toList ≠ [] := by
    intro h
    rw [← String.length_toList, h] at hlong
    simp at hlong
  have hword : digits text.toList = .ok (some (text.toList, [])) := by
    have happend : digits (text.toList ++ []) = .ok (some (text.toList, [])) :=
      Reading.word_append hne hdigits (by simp)
    rwa [List.append_nil] at happend
  have hread : expression text.toList = .error (.tooManyDigits text.length) := by
    rw [← String.length_toList] at hlong ⊢
    simp [expression, term, factor, number, joined, separated, Reading.map, Reading.andThen,
      Reading.bind, Reading.orElse, hword, numberOf, hlong, Except.map]
  obtain ⟨m, hm⟩ := parseValue_exec settings text path
  rw [(parse_eq text).1 _ hread] at hm
  exact ⟨m, hm⟩

end ParserAlgebra.Expr
