import ParserAlgebra.CommandLine.Run
import ParserAlgebra.Proofs.Expr.Arithmetic
import ParserAlgebra.Proofs.Expr.Settings
import ParserAlgebra.Proofs.Offset
import ParserAlgebra.Proofs.Reach.Static

/-!
# How the tool ends

A run of the tool prints what it was asked for and exits with status zero, or reports what went
wrong and exits with status one. Three kinds of faults are reported: that the text is no expression,
that a name is not bound and that a tree is too deep to be printed. The others that can come up are
conversions of numbers with too many digits, either way, and parts of the command line that were
struck.
-/

namespace ParserAlgebra

/-! ### Outlines -/

theorem Parser.outline_ok {rules : Rules} :
    ∀ {p : Parser}, p.Kinded rules → ∀ depth, ∃ lines, p.outline depth = .ok lines
  | .map .., h, depth | .bind .., h, depth | .orElse .., h, depth | .many .., h, depth
  | .manyBetween .., h, depth | .collect .., h, depth => by
    obtain ⟨below, hbelow⟩ := outline_ok (h.child (.head _)) (depth + 1)
    simp only [outline, hbelow]
    exact ⟨_, rfl⟩
  | .product .., h, depth | .both .., h, depth => by
    obtain ⟨first, hfirst⟩ := outline_ok (h.child (.head _)) (depth + 1)
    obtain ⟨second, hsecond⟩ := outline_ok (h.child (.tail _ (.head _))) (depth + 1)
    simp only [outline, hfirst, hsecond]
    exact ⟨_, rfl⟩
  | .bare .., h, depth => nomatch h.isBare_eq
  | .literal .., _, depth | .char .., _, depth | .charWhere .., _, depth | .constant .., _, depth
  | .identity .., _, depth | .fail .., _, depth | .delayed .., _, depth | .memoized .., _, depth
  | .loop .., _, depth => ⟨_, rfl⟩

theorem Parser.dump_ok {rules : Rules} {p : Parser} (h : p.Kinded rules) (indent : String) :
    ∃ text, p.dump indent = .ok text := by
  obtain ⟨lines, hlines⟩ := outline_ok h 0
  rw [dump, hlines]
  exact ⟨_, rfl⟩

namespace CommandLine

open ParserAlgebra.Expr (RunsFit freshMemory)

/-! ### Work that is reported -/

/-- The run came to an end with a status. -/
def Exits (r : Host × Except Halt Exit) : Prop :=
  r.2 = .ok (.status 0) ∨ r.2 = .ok (.status 1)

/-- There are contents to print, or there is a line for what went wrong. -/
def Answered (path : String) : Except Halt String → Prop
  | .ok _ => True
  | .error (.fault f) => (complaint? path f).isSome = true
  | .error .exhausted => False

theorem produce_exits {o : Options} {h : Host} {path : String} {work : Run String} :
    Exits (produce o h path work) ↔ Answered path (work.exec freshMemory).1 := by
  unfold produce
  rcases work.exec freshMemory with ⟨(f | _) | contents, m⟩
  · dsimp only [Answered]
    cases complaint? path f <;> simp [Exits]
  · simp [Exits, Answered]
  · simp [Exits, Answered]

theorem optimize_kinded : ∃ q next,
    (optimize [] Expr.depth Expr.grammar.expression).exec freshMemory =
      (.ok q, { freshMemory with nextId := next }) ∧ q.Kinded [] := by
  have hkinded : Expr.grammar.expression.Kinded [] := Parser.kinded_of_static rfl rfl
  have hempty : freshMemory.Holds (Parser.Kinded []) := nofun
  obtain ⟨q, next, hq, -⟩ := Expr.optimize_expression #[] freshMemory
  have hkeeps := (optimize_everywhere isBare_local Expr.depth hkinded freshMemory hempty).2
  rw [hq] at hkeeps
  exact ⟨q, next, hq, hkeeps q rfl⟩

theorem outline_answered (o : Options) (path : String) :
    Answered path ((outline o).exec freshMemory).1 := by
  have hdump : ∀ {x : Run Parser} {p : Parser} {m : Memory}, x.exec freshMemory = (.ok p, m) →
      p.Kinded [] →
        Answered path ((x >>= fun p => Run.ofExcept (p.dump "  ")).exec freshMemory).1 := by
    intro x p m hx hp
    obtain ⟨text, htext⟩ := Parser.dump_ok hp "  "
    rw [Run.exec_bind, hx]
    dsimp only
    rw [htext]
    trivial
  obtain ⟨q, next, hq, hkinded⟩ := optimize_kinded
  unfold outline
  -- What the pass makes is known from here on; unfolding it would run it over the whole grammar.
  generalize optimize [] Expr.depth Expr.grammar.expression = optimized at hq
  dsimp only
  split
  · exact hdump hq hkinded
  · exact hdump (Run.exec_pure _ _) (Parser.kinded_of_static rfl rfl)

/-! ### Texts within the limits -/

theorem bindings_ok (index : Nat) {definitions : List (Option (String × Int))}
    (h : none ∉ definitions) : ∃ env, bindings index definitions = .ok env := by
  induction definitions generalizing index with
  | nil => exact ⟨[], rfl⟩
  | cons d rest ih =>
    cases d with
    | none => simp at h
    | some d =>
      obtain ⟨env, henv⟩ := ih (index + 1) fun hmem => h (.tail _ hmem)
      exact ⟨d :: env, by rw [bindings, henv]; rfl⟩

theorem environment_ok {o : Options} (h : none ∉ o.definitions) :
    ∃ env, environment o = .ok env := by
  obtain ⟨env, henv⟩ := bindings_ok 0 h
  exact ⟨env.reverse, by rw [environment, henv]; rfl⟩

/-- No number that is read from the text or written for it has too many digits, and the definitions
for it, if it is to be evaluated, are there. -/
structure Convertible (o : Options) (text : String) : Prop where
  digits : RunsFit text.toList
  definitions : o.evaluate = true → none ∉ o.definitions
  value : o.evaluate = true → ∀ env n, environment o = .ok env →
    ((Expr.evaluateText text env).exec freshMemory).1 = .ok n →
      (Text.Decimal.write? n).isSome = true

theorem render_answered {o : Options} {e : Expr} {path : String} {m : Memory}
    (hdefs : o.evaluate = true → none ∉ o.definitions)
    (hvalue : o.evaluate = true → ∀ env n, environment o = .ok env → e.evaluate env = .ok n →
      (Text.Decimal.write? n).isSome = true) :
    Answered path ((Run.ofExcept (render o e)).exec m).1 := by
  unfold render
  split
  · rename_i heval
    obtain ⟨env, henv⟩ := environment_ok (hdefs heval)
    rw [henv]
    rcases hn : e.evaluate env with f | n
    · obtain ⟨x, rfl⟩ := Expr.evaluate_error hn
      simp only [bind, Except.bind, hn]
      exact rfl
    · obtain ⟨digits, hdigits⟩ := Option.isSome_iff_exists.1 (hvalue heval env n henv hn)
      simp only [bind, Except.bind, hn, hdigits]
      exact trivial
  · obtain ⟨document, hdocument⟩ := e.toJson_ok
    rw [hdocument]
    by_cases hdeep : maxNesting < document.depth
    · simp only [bind, Except.bind, hdeep, if_true]
      exact rfl
    · simp only [bind, Except.bind, hdeep, if_false]
      exact trivial

theorem contents_answered {o : Options} {text path : String} (h : Convertible o text) :
    Answered path ((contentsOf o (.text text) path).exec freshMemory).1 := by
  have hends := Expr.parseValue_ends h.digits { optimized := o.optimize, trace := o.trace } path
  unfold contentsOf
  dsimp only
  generalize parseValue [] Expr.depth _ Expr.grammar.expression text path false = work at hends
  rw [Run.exec_bind]
  rcases hends with ⟨e, m, hwork, hparse⟩ | ⟨error, m, hwork⟩
  · rw [hwork]
    refine render_answered h.definitions fun heval env n henv hn => h.value heval env n henv ?_
    rw [Expr.evaluateText_of_parse (by rw [hparse]; rfl), hn]
    rfl
  · rw [hwork]
    exact rfl

/-! ### Runs -/

/-- What the run reads is there, and no number that it meets is too long. -/
def Readable (o : Options) (h : Host) : Prop :=
  match readInput o h with
  | .ok (.text text, _) => Convertible o text
  | .ok (.struck, _) => False
  | .error (.noSuchFile _) => True
  | .error .noPath => False

theorem perform_exits {o : Options} {h : Host}
    (hread : o.version = false → o.tree = false → Readable o h) : Exits (perform o h) := by
  unfold perform
  cases hversion : o.version with
  | true => exact .inl rfl
  | false =>
    cases htree : o.tree with
    | true => exact produce_exits.2 (outline_answered o "")
    | false =>
      have hr := hread hversion htree
      unfold Readable at hr
      rw [if_neg Bool.false_ne_true, if_neg Bool.false_ne_true]
      match hinput : readInput o h with
      | .ok (.text text, path) =>
        rw [hinput] at hr
        exact produce_exits.2 (contents_answered hr)
      | .ok (.struck, path) =>
        rw [hinput] at hr
        exact hr.elim
      | .error (.noSuchFile path) => exact .inr rfl
      | .error .noPath =>
        rw [hinput] at hr
        exact hr.elim

/-- Whatever the host and the options, a run exits with status zero or one, if what it reads is
there and no number that it reads or writes has too many digits. -/
theorem run_exits {args : List String} {o : Options} (h : Host)
    (hargs : Options.ofArgs args = .ok o)
    (hread : o.version = false → o.tree = false → Readable o h) : Exits (run args h) := by
  rw [run, hargs]
  exact perform_exits hread

theorem write?_isSome {n : Int} (h : n.natAbs ≤ Text.Decimal.maxDigits) :
    (Text.Decimal.write? n).isSome = true := by
  unfold Text.Decimal.write?
  generalize Text.Decimal.maxDigits = digits at h ⊢
  have hlt : n.natAbs < Nat.pow 10 digits := h.trans_lt (Nat.lt_pow_self (by decide))
  rw [if_pos hlt]
  rfl

def productArgs : List String := ["-O", "--trace", "-e", "-Dx=5", "-c", "2 * x"]

theorem productArgs_exit : ∃ o, Options.ofArgs productArgs = .ok o ∧ o.evaluate = true ∧
    Readable o {} ∧ Exits (run productArgs {}) := by
  let o : Options :=
    { code := some (.text "2 * x"), definitions := [some ("x", 5)], evaluate := true,
      optimize := true, trace := true }
  have hargs : Options.ofArgs productArgs = .ok o := by rfl
  have hfit : RunsFit "2 * x".toList := fun ds hds _ => hds.length_le.trans (by decide)
  have hx : Expr.IsFactor ['x'] := ⟨by simp, .inr (List.all_eq_true.1 rfl)⟩
  have htwo : Expr.IsFactor ['2'] := ⟨by simp, .inl (List.all_eq_true.1 rfl)⟩
  have hsum : Expr.IsSumOf [[['2'], ['x']]] "2 * x".toList := ⟨by simp, by simp [hx, htwo], rfl⟩
  have hread : Convertible o "2 * x" := by
    refine ⟨hfit, fun _ => by simp [o], fun _ env n henv hn => ?_⟩
    obtain rfl : env = [("x", 5)] := by
      cases henv
      rfl
    have hvalue : Expr.sumValue [("x", 5)] [[['2'], ['x']]] = .ok 10 := rfl
    rw [Expr.evaluateText_of_tree (Expr.sum_tree hfit hsum), hvalue] at hn
    cases hn
    exact write?_isSome (by decide)
  exact ⟨o, hargs, rfl, hread, run_exits {} hargs fun _ _ => hread⟩

/-! ### A number that is too long -/

/-- A text that begins with no dash is the value of the option before it. -/
theorem ofArgs_code {text : String} (h : text.toList.head? ≠ some '-') :
    Options.ofArgs ["-c", text] = .ok { code := some (.text text) } := by
  have hclassify : classify text = .ok (.value text) := by
    rw [classify, if_pos h]
  have hne : text ≠ "--" := by
    rintro rfl
    exact h rfl
  have hrest : classifyAll [text] = .ok [(text, .value text)] := by
    rw [classifyAll, hclassify]
    · rfl
    · exact hne
  have hwords : classifyAll ["-c", text] =
      .ok [("-c", .option .code false none), (text, .value text)] := by
    rw [classifyAll, hrest]
    · rfl
    · decide
  rw [Options.ofArgs, hwords]
  rfl

theorem run_code {text : String} (h : Host) (hdash : text.toList.head? ≠ some '-') :
    run ["-c", text] h = produce { code := some (.text text) } h "<code>"
      (contentsOf { code := some (.text text) } (.text text) "<code>") := by
  rw [run, ofArgs_code hdash]
  dsimp only
  rw [perform, if_neg Bool.false_ne_true, if_neg Bool.false_ne_true, readInput]

/-- No status is given for a number with too many digits. -/
theorem run_tooManyDigits {text : String} (h : Host) (hdigits : ∀ c ∈ text.toList, c.isDigit = true)
    (hlong : Text.Decimal.maxDigits < text.length) :
    (run ["-c", text] h).2 = .error (.fault (.tooManyDigits text.length)) := by
  have hdash : text.toList.head? ≠ some '-' := by
    intro hhead
    have hdigit := hdigits '-' (List.mem_of_head? hhead)
    cases hdigit
  obtain ⟨m, hm⟩ := Expr.parseValue_tooManyDigits hdigits hlong {} "<code>"
  have hwork : (contentsOf { code := some (.text text) } (.text text) "<code>").exec freshMemory =
      (.error (.fault (.tooManyDigits text.length)), m) := by
    unfold contentsOf
    dsimp only
    generalize parseValue [] Expr.depth _ Expr.grammar.expression text "<code>" false = work at hm
    rw [Run.exec_bind, hm]
  rw [run_code h hdash, produce, hwork]
  rfl

def longNumber : String := String.ofList (List.replicate 4301 '1')

theorem longNumber_escapes : (∃ o, Options.ofArgs ["-c", longNumber] = .ok o) ∧
    ¬Exits (run ["-c", longNumber] {}) := by
  have hchars : longNumber.toList = List.replicate 4301 '1' := String.toList_ofList
  have hlength : longNumber.length = 4301 := by
    rw [← String.length_toList, hchars, List.length_replicate]
  have hdigits : ∀ c ∈ longNumber.toList, c.isDigit = true := by
    intro c hc
    rw [hchars] at hc
    rw [List.eq_of_mem_replicate hc]
    rfl
  have hdash : longNumber.toList.head? ≠ some '-' := by
    rw [hchars]
    decide
  have hrun := run_tooManyDigits {} hdigits (by rw [hlength]; decide)
  refine ⟨⟨_, ofArgs_code hdash⟩, fun hexits => ?_⟩
  rw [Exits, hrun] at hexits
  simp at hexits

end CommandLine

end ParserAlgebra
