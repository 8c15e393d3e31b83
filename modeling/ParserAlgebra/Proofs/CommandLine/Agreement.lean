import ParserAlgebra.Proofs.CommandLine.Exit
import ParserAlgebra.Proofs.CommandLine.Words
import ParserAlgebra.Proofs.Expr.Answer
import ParserAlgebra.Proofs.Onward

/-!
# What the tool prints for a value

A run of the tool that asks for a value prints the value of the text, or what is wrong with it, and
nothing else. It does so for each way in which the text can come, optimized or not: the line feeds
behind a text that is read are taken off, the last definition of a name counts, and an error names
the place that the text came from.
-/

namespace ParserAlgebra.CommandLine

open ParserAlgebra.Expr (Found freshMemory)

/-! ### Definitions -/

/-- The environment binds the names of the definitions, each to what the last definition of it
says. -/
def LastWins (definitions env : List (String × Int)) : Prop :=
  ∀ x n, env.lookup x = some n ↔ ∃ before after, definitions = before ++ (x, n) :: after ∧
    ∀ d ∈ after, d.1 ≠ x

theorem lastWins_reverse (definitions : List (String × Int)) :
    LastWins definitions definitions.reverse := by
  intro x n
  rw [List.lookup_eq_some_iff]
  constructor
  · rintro ⟨front, back, h, hfront⟩
    refine ⟨back.reverse, front.reverse, ?_, fun d hd => ?_⟩
    · rw [← List.reverse_reverse definitions, h]
      simp
    · have hne := hfront d (List.mem_reverse.1 hd)
      exact fun he => bne_iff_ne.1 hne he.symm
  · rintro ⟨before, after, rfl, hafter⟩
    refine ⟨after.reverse, before.reverse, by simp, fun d hd => ?_⟩
    exact bne_iff_ne.2 (hafter d (List.mem_reverse.1 hd)).symm

theorem LastWins.lookup_eq {definitions env : List (String × Int)} (h : LastWins definitions env)
    (x : String) : definitions.reverse.lookup x = env.lookup x :=
  Option.ext fun n => (lastWins_reverse definitions x n).trans (h x n).symm

theorem bindings_some (index : Nat) (definitions : List (String × Int)) :
    bindings index (definitions.map some) = .ok definitions := by
  induction definitions generalizing index with
  | nil => rfl
  | cons d rest ih => rw [List.map_cons, bindings, ih]; rfl

/-! ### Texts -/

def feeds (count : Nat) : String := String.ofList (List.replicate count '\n')

theorem dropWhile_replicate_append (count : Nat) {cs : List Char} (h : cs.head? ≠ some '\n') :
    (List.replicate count '\n' ++ cs).dropWhile (· == '\n') = cs := by
  induction count with
  | zero =>
    cases cs with
    | nil => rfl
    | cons c cs =>
      have hne : (c == '\n') = false := beq_eq_false_iff_ne.2 fun he => h (congrArg some he)
      rw [List.replicate_zero, List.nil_append, List.dropWhile_cons, hne, if_neg Bool.false_ne_true]
  | succ count ih => exact ih

theorem trimEnd_feeds {text : String} (htext : text.toList.getLast? ≠ some '\n') (count : Nat) :
    trimEnd (text ++ feeds count) = text := by
  have hfeeds : (feeds count).toList.reverse = List.replicate count '\n' := by
    rw [feeds, String.toList_ofList, List.reverse_replicate]
  have hhead : text.toList.reverse.head? ≠ some '\n' := by rwa [List.head?_reverse]
  rw [trimEnd, String.toList_append, List.reverse_append, hfeeds,
    dropWhile_replicate_append count hhead, List.reverse_reverse, String.ofList_toList]

/-- The ways in which a text can come, each with the path that errors name. -/
inductive Delivers (o : Options) (h : Host) (text : String) : String → Prop
  | code (hcode : o.code = some (.text text)) : Delivers o h text "<code>"
  | stdin (count : Nat) (hcode : o.code = none) (hinput : o.input = .text "-")
      (hstdin : h.stdin = text ++ feeds count) : Delivers o h text "<stdin>"
  | file (path : String) (count : Nat) (hcode : o.code = none) (hinput : o.input = .text path)
      (hpath : path ≠ "-") (hfile : h.read? path = some (text ++ feeds count)) :
      Delivers o h text path

theorem Delivers.readInput_eq {o : Options} {h : Host} {text path : String}
    (hd : Delivers o h text path) (htext : text.toList.getLast? ≠ some '\n') :
    readInput o h = .ok (.text text, path) := by
  cases hd with
  | code hcode => simp only [readInput, hcode]
  | stdin count hcode hinput hstdin =>
    simp only [readInput, hcode, hinput, if_true, hstdin, trimEnd_feeds htext]
  | file _ count hcode hinput hpath hfile =>
    simp only [readInput, hcode, hinput, hpath, if_false, hfile, trimEnd_feeds htext]

/-! ### Runs without a log -/

theorem contents_quiet {o : Options} (ht : o.trace = false) (text path : String) :
    ((contentsOf o (.text text) path).exec freshMemory).2.log = [] := by
  have hR : Memory.Onward true (Settings.mk o.optimize o.trace).trace fun m m' =>
    m'.log = m.log := ht ▸ Memory.log_onward true
  have hwork : Run.Moves (fun m m' => m'.log = m.log) (contentsOf o (.text text) path) := by
    refine .bind hR (parseValue_moves hR [] Expr.depth Expr.grammar.expression text path false)
      fun v => ?_
    cases v with
    | expr e => exact .ofExcept hR _
    | _ => exact .raise hR _
  exact hwork freshMemory

theorem printError_empty (h : Host) : h.printError "" = h := by
  rw [Host.printError, String.append_empty]

/-- What the run of a piece of work without a log leads to. -/
theorem produce_quiet {o : Options} {h : Host} {path : String} {work : Run String}
    (hquiet : (work.exec freshMemory).2.log = []) :
    produce o h path work =
      match (work.exec freshMemory).1 with
      | .ok contents => (deliver o h contents, .ok (.status 0))
      | .error (.fault f) =>
        match complaint? path f with
        | some line => (h.printError (line ++ "\n"), .ok (.status 1))
        | none => (h, .error (.fault f))
      | .error .exhausted => (h, .error .exhausted) := by
  have hlog : logLines (work.exec freshMemory).2 = "" := by simp [logLines, hquiet]
  have hhost : h.printError (logLines (work.exec freshMemory).2) = h := by
    rw [hlog, printError_empty]
  unfold produce
  dsimp only
  rcases (work.exec freshMemory).1 with (f | _) | contents
  · dsimp only
    cases complaint? path f <;> simp only [hhost]
  · simp only [hhost]
  · simp only [hhost]

/-! ### Values -/

/-- The options ask for the value of a text under these definitions, to be printed. -/
structure AsksValue (o : Options) (definitions : List (String × Int)) : Prop where
  evaluate : o.evaluate = true
  definitions : o.definitions = definitions.map some
  output : o.output = none
  trace : o.trace = false
  tree : o.tree = false
  version : o.version = false

/-- How a run ends for the outcome of evaluating a text that `path` names. -/
def reported (h : Host) (path : String) : Except Fault Int → Host × Except Halt Exit
  | .ok n =>
    match Text.Decimal.write? n with
    | some digits => (h.print (digits ++ "\n"), .ok (.status 0))
    | none => (h, .error (.fault .unwritable))
  | .error (.noParse e) => (h.printError (report path e.line e.reason ++ "\n"), .ok (.status 1))
  | .error (.unbound x) =>
    (h.printError (path ++ ": " ++ ("Unbound variable \"" ++ x ++ "\"") ++ "\n"), .ok (.status 1))
  | .error f => (h, .error (.fault f))

theorem render_value {o : Options} {definitions env : List (String × Int)}
    (ho : AsksValue o definitions) (henv : LastWins definitions env) (e : Expr) :
    render o e =
      match e.evaluate env with
      | .ok n =>
        match Text.Decimal.write? n with
        | some digits => .ok (digits ++ "\n")
        | none => .error .unwritable
      | .error f => .error f := by
  have hbound : environment o = .ok definitions.reverse := by
    rw [environment, ho.definitions, bindings_some]
    rfl
  rw [render, if_pos ho.evaluate, hbound, ← Expr.evaluate_congr henv.lookup_eq e]
  cases hvalue : e.evaluate definitions.reverse with
  | error f => simp only [bind, Except.bind, hvalue]
  | ok n =>
    simp only [bind, Except.bind, hvalue]
    cases Text.Decimal.write? n <;> rfl

theorem contents_found {o : Options} {text path : String} {found : Found}
    (hfound : ∀ settings path,
      ((parseValue [] Expr.depth settings Expr.grammar.expression text path false).exec
        freshMemory).1 = Run.ended (found.outcome text path fun e => .ok (.expr e))) :
    ((contentsOf o (.text text) path).exec freshMemory).1 =
      Run.ended (found.outcome text path (render o)) :=
  Expr.outcome_bind (hfound _ path) fun _ => rfl

theorem perform_reported {o : Options} {h : Host} {text path : String} {found : Found}
    {definitions env : List (String × Int)} (ho : AsksValue o definitions)
    (hd : Delivers o h text path) (htext : text.toList.getLast? ≠ some '\n')
    (henv : LastWins definitions env)
    (hfound : ∀ settings path,
      ((parseValue [] Expr.depth settings Expr.grammar.expression text path false).exec
        freshMemory).1 = Run.ended (found.outcome text path fun e => .ok (.expr e))) :
    perform o h = reported h path (found.outcome text defaultPath fun e => e.evaluate env) := by
  have hdeliver : ∀ contents, deliver o h contents = h.print contents := fun contents => by
    rw [deliver, ho.output]
  rw [perform, ho.version, if_neg Bool.false_ne_true, ho.tree, if_neg Bool.false_ne_true,
    hd.readInput_eq htext]
  dsimp only
  rw [produce_quiet (contents_quiet ho.trace text path), contents_found hfound]
  cases found with
  | failing why start => rfl
  | tooLong n => rfl
  | tree e =>
    rw [Found.outcome, Found.outcome, render_value ho henv]
    cases hvalue : e.evaluate env with
    | ok n =>
      dsimp only [reported]
      cases Text.Decimal.write? n with
      | some digits => exact congrArg (·, _) (hdeliver _)
      | none => rfl
    | error f =>
      obtain ⟨x, rfl⟩ := Expr.evaluate_error hvalue
      rfl

/-! ### Lines that can be told apart -/

theorem print_inj {h : Host} {s t : String} (he : h.print s = h.print t) : s = t :=
  (String.append_right_inj h.stdout).1 (congrArg Host.stdout he)

theorem printError_inj {h : Host} {s t : String} (he : h.printError s = h.printError t) : s = t :=
  (String.append_right_inj h.stderr).1 (congrArg Host.stderr he)

theorem toList_line (line : Nat) : (toString line).toList = Nat.toDigits 10 line := by
  rw [Nat.toString_eq_repr, Nat.toList_repr]

theorem space_notMem_toDigits (line : Nat) : ' ' ∉ Nat.toDigits 10 line := fun h =>
  absurd (Nat.isDigit_of_mem_toDigits (by decide) (by decide) h) (by decide)

theorem cut_at_space {ds ds' cs cs' : List Char} (h : ' ' ∉ ds) (h' : ' ' ∉ ds')
    (he : ds ++ ' ' :: cs = ds' ++ ' ' :: cs') : ds = ds' ∧ cs = cs' := by
  induction ds generalizing ds' with
  | nil =>
    cases ds' with
    | nil => exact ⟨rfl, List.tail_eq_of_cons_eq he⟩
    | cons d' ds' => exact absurd (List.head_eq_of_cons_eq he ▸ List.mem_cons_self) h'
  | cons d ds ih =>
    cases ds' with
    | nil => exact absurd ((List.head_eq_of_cons_eq he).symm ▸ List.mem_cons_self) h
    | cons d' ds' =>
      obtain ⟨rfl, hrest⟩ := List.cons.inj he
      obtain ⟨rfl, rfl⟩ :=
        ih (List.not_mem_of_not_mem_cons h) (List.not_mem_of_not_mem_cons h') hrest
      exact ⟨rfl, rfl⟩

/-- A report tells its line and its words. -/
theorem report_inj {path words words' : String} {line line' : Nat}
    (h : path ++ ":" ++ toString line ++ " " ++ words ++ "\n" =
      path ++ ":" ++ toString line' ++ " " ++ words' ++ "\n") : line = line' ∧ words = words' := by
  have hchars := congrArg String.toList ((String.append_left_inj "\n").1 h)
  simp only [String.toList_append, List.append_assoc, List.append_cancel_left_eq, toList_line]
    at hchars
  have hcut : Nat.toDigits 10 line ++ ' ' :: words.toList =
      Nat.toDigits 10 line' ++ ' ' :: words'.toList := hchars
  obtain ⟨hline, hwords⟩ :=
    cut_at_space (space_notMem_toDigits line) (space_notMem_toDigits line') hcut
  refine ⟨?_, String.toList_inj.1 hwords⟩
  rw [← toList_line, ← toList_line] at hline
  exact Nat.repr_inj.1 (String.toList_inj.1 hline)

/-- A report has a number behind the path. -/
theorem report_ne_unbound (path words x : String) (line : Nat) :
    path ++ ":" ++ toString line ++ " " ++ words ++ "\n" ≠
      path ++ ": " ++ ("Unbound variable \"" ++ x ++ "\"") ++ "\n" := by
  intro h
  have hchars := congrArg String.toList ((String.append_left_inj "\n").1 h)
  simp only [String.toList_append, List.append_assoc, List.append_cancel_left_eq, toList_line]
    at hchars
  have hcut : ':' :: (Nat.toDigits 10 line ++ ' ' :: words.toList) =
      ':' :: ' ' :: ("Unbound variable \"".toList ++ (x.toList ++ "\"".toList)) := hchars
  cases hdigits : Nat.toDigits 10 line with
  | nil => exact Nat.toDigits_ne_nil hdigits
  | cons d ds =>
    rw [hdigits] at hcut
    injection hcut with _ hrest
    injection hrest with hd _
    exact space_notMem_toDigits line (hdigits ▸ hd ▸ List.mem_cons_self)

theorem unbound_inj {path x x' : String}
    (h : path ++ ": " ++ ("Unbound variable \"" ++ x ++ "\"") ++ "\n" =
      path ++ ": " ++ ("Unbound variable \"" ++ x' ++ "\"") ++ "\n") : x = x' := by
  have hwords := (String.append_right_inj _).1 ((String.append_left_inj "\n").1 h)
  exact (String.append_right_inj _).1 ((String.append_left_inj "\"").1 hwords)

theorem write?_eq_some_iff {n : Int} {digits : String} :
    Text.Decimal.write? n = some digits ↔
      n.natAbs < 10 ^ Text.Decimal.maxDigits ∧ digits = toString n := by
  unfold Text.Decimal.write?
  generalize Text.Decimal.maxDigits = limit
  have hpow : Nat.pow 10 limit = 10 ^ limit := rfl
  rw [hpow]
  by_cases hfits : n.natAbs < 10 ^ limit
  · rw [if_pos hfits, Option.some_inj]
    exact ⟨fun h => ⟨hfits, h.symm⟩, fun h => h.2.symm⟩
  · rw [if_neg hfits]
    exact ⟨nofun, fun h => absurd h.1 hfits⟩

/-! ### Agreement -/

theorem reported_written {h : Host} {path digits : String} {n : Int}
    (hwrite : Text.Decimal.write? n = some digits) :
    reported h path (.ok n) = (h.print (digits ++ "\n"), .ok (.status 0)) := by
  unfold reported
  dsimp only
  rw [hwrite]

theorem reported_unwritable {h : Host} {path : String} {n : Int}
    (hwrite : Text.Decimal.write? n = none) :
    reported h path (.ok n) = (h, .error (.fault .unwritable)) := by
  unfold reported
  dsimp only
  rw [hwrite]

/-- A run whose status is one is about a fault. -/
theorem reported_failure {h h' : Host} {path : String} {outcome : Except Fault Int}
    (hr : reported h path outcome = (h', .ok (.status 1))) :
    (∃ e, outcome = .error (.noParse e) ∧
      h' = h.printError (report path e.line e.reason ++ "\n")) ∨
    ∃ x, outcome = .error (.unbound x) ∧
      h' = h.printError (path ++ ": " ++ ("Unbound variable \"" ++ x ++ "\"") ++ "\n") := by
  rcases outcome with f | n
  · cases f with
    | noParse e => exact .inl ⟨e, rfl, (Prod.ext_iff.1 hr).1.symm⟩
    | unbound x => exact .inr ⟨x, rfl, (Prod.ext_iff.1 hr).1.symm⟩
    | _ => cases (Prod.ext_iff.1 hr).2
  · cases hwrite : Text.Decimal.write? n with
    | none =>
      rw [reported_unwritable hwrite] at hr
      cases (Prod.ext_iff.1 hr).2
    | some digits =>
      rw [reported_written hwrite] at hr
      cases (Prod.ext_iff.1 hr).2

/-- A value is printed exactly if it is the value and can be written. -/
theorem reported_eq_value_iff {h : Host} {path : String} {outcome : Except Fault Int} {n : Int} :
    reported h path outcome = (h.print (toString n ++ "\n"), .ok (.status 0)) ↔
      outcome = .ok n ∧ n.natAbs < 10 ^ Text.Decimal.maxDigits := by
  constructor
  · intro hr
    rcases outcome with f | k
    · cases f <;> cases (Prod.ext_iff.1 hr).2
    · cases hwrite : Text.Decimal.write? k with
      | none =>
        rw [reported_unwritable hwrite] at hr
        cases (Prod.ext_iff.1 hr).2
      | some digits =>
        rw [reported_written hwrite] at hr
        obtain ⟨hfits, rfl⟩ := write?_eq_some_iff.1 hwrite
        have hdigits := (String.append_left_inj "\n").1 (print_inj (Prod.ext_iff.1 hr).1)
        obtain rfl : k = n := Int.repr_inj.1 hdigits
        exact ⟨rfl, hfits⟩
  · rintro ⟨rfl, hfits⟩
    exact reported_written (write?_eq_some_iff.2 ⟨hfits, rfl⟩)

theorem reported_eq_error_iff {h : Host} {path words : String} {outcome : Except Fault Int}
    {line : Nat} :
    reported h path outcome =
        (h.printError (path ++ ":" ++ toString line ++ " " ++ words ++ "\n"), .ok (.status 1)) ↔
      ∃ e, outcome = .error (.noParse e) ∧ e.line = line ∧ e.reason.text = words := by
  constructor
  · intro hr
    rcases reported_failure hr with ⟨e, rfl, he⟩ | ⟨x, rfl, he⟩
    · obtain ⟨hline, hwords⟩ := report_inj (printError_inj he)
      exact ⟨e, rfl, hline.symm, hwords.symm⟩
    · exact absurd (printError_inj he) (report_ne_unbound path words x line)
  · rintro ⟨e, rfl, rfl, rfl⟩
    rfl

theorem reported_eq_unbound_iff {h : Host} {path x : String} {outcome : Except Fault Int} :
    reported h path outcome =
        (h.printError (path ++ ": " ++ ("Unbound variable \"" ++ x ++ "\"") ++ "\n"),
          .ok (.status 1)) ↔
      outcome = .error (.unbound x) := by
  constructor
  · intro hr
    rcases reported_failure hr with ⟨e, rfl, he⟩ | ⟨y, rfl, he⟩
    · exact absurd (printError_inj he).symm (report_ne_unbound path e.reason.text x e.line)
    · rw [unbound_inj (printError_inj he)]
  · rintro rfl
    rfl

/-- A run that asks for a value reports the outcome of evaluating the text. -/
theorem run_reported {args : List String} {o : Options} {h : Host} {text path : String}
    {definitions env : List (String × Int)} (hargs : Options.ofArgs args = .ok o)
    (ho : AsksValue o definitions) (hd : Delivers o h text path)
    (htext : text.toList.getLast? ≠ some '\n') (henv : LastWins definitions env) :
    ∃ outcome, ((Expr.evaluateText text env).exec freshMemory).1 = Run.ended outcome ∧
      run args h = reported h path outcome := by
  obtain ⟨found, hfound⟩ := Expr.parseValue_found text
  refine ⟨_, Expr.evaluateText_outcome env hfound, ?_⟩
  rw [run, hargs]
  exact perform_reported ho hd htext henv hfound

theorem ended_ok_iff {outcome : Except Fault Int} {n : Int} :
    Run.ended outcome = .ok n ↔ outcome = .ok n := by
  have h : Run.ended outcome = Run.ended (.ok n) ↔ outcome = .ok n :=
    ⟨Run.ended_injective, congrArg Run.ended⟩
  exact h

theorem ended_error_iff {outcome : Except Fault Int} {f : Fault} :
    Run.ended outcome = .error (.fault f) ↔ outcome = .error f := by
  have h : Run.ended outcome = Run.ended (.error f) ↔ outcome = .error f :=
    ⟨Run.ended_injective, congrArg Run.ended⟩
  exact h

/-- The tool agrees with the evaluation of the text, whichever way the text comes and however the
options are spelled. It prints a value exactly if that is the value and can be written, it reports
where and why the text is no expression exactly if that is what is wrong with the text, and it
names an unbound name exactly if that is the first one that is met. -/
theorem run_agrees {args : List String} {o : Options} {h : Host} {text path : String}
    {definitions env : List (String × Int)} (hargs : Options.ofArgs args = .ok o)
    (ho : AsksValue o definitions) (hd : Delivers o h text path)
    (htext : text.toList.getLast? ≠ some '\n') (henv : LastWins definitions env) :
    (∀ n : Int, run args h = (h.print (toString n ++ "\n"), .ok (.status 0)) ↔
      ((Expr.evaluateText text env).exec freshMemory).1 = .ok n ∧
        n.natAbs < 10 ^ Text.Decimal.maxDigits) ∧
    (∀ (line : Nat) (words : String),
      run args h =
          (h.printError (path ++ ":" ++ toString line ++ " " ++ words ++ "\n"),
            .ok (.status 1)) ↔
        ∃ e, ((Expr.evaluateText text env).exec freshMemory).1 = .error (.fault (.noParse e)) ∧
          e.line = line ∧ e.reason.text = words) ∧
    ∀ x : String,
      run args h =
          (h.printError (path ++ ": " ++ ("Unbound variable \"" ++ x ++ "\"") ++ "\n"),
            .ok (.status 1)) ↔
        ((Expr.evaluateText text env).exec freshMemory).1 = .error (.fault (.unbound x)) := by
  obtain ⟨outcome, houtcome, hrun⟩ := run_reported hargs ho hd htext henv
  rw [houtcome, hrun]
  refine ⟨fun n => ?_, fun line words => ?_, fun x => ?_⟩
  · rw [ended_ok_iff]
    exact reported_eq_value_iff
  · simp only [ended_error_iff]
    exact reported_eq_error_iff
  · rw [ended_error_iff]
    exact reported_eq_unbound_iff

/-! ### Every text can come -/

section

variable {texts : List String} {definitions : List (String × Int)} {text : String}

/-- Two dashes are the only text that cannot come on the command line. -/
theorem code_delivers (hdefs : List.Forall₂ (fun t d => definition t = .ok d) texts definitions)
    (optimized : Bool) (h : Host) (htext : text ≠ "--") :
    ∃ o, Options.ofArgs (evalArgs optimized texts [valued "code" text]) = .ok o ∧
      AsksValue o definitions ∧ Delivers o h text "<code>" := by
  refine ⟨_, (ofArgs_evalArgs hdefs optimized _).trans (takeArgs_code htext _ []), ?_, .code rfl⟩
  exact ⟨rfl, rfl, rfl, rfl, rfl, rfl⟩

theorem stdin_delivers (hdefs : List.Forall₂ (fun t d => definition t = .ok d) texts definitions)
    (optimized : Bool) (h : Host) (count : Nat) (hstdin : h.stdin = text ++ feeds count) :
    ∃ o, Options.ofArgs (evalArgs optimized texts []) = .ok o ∧
      AsksValue o definitions ∧ Delivers o h text "<stdin>" := by
  refine ⟨_, ofArgs_evalArgs hdefs optimized [], ?_, .stdin count rfl rfl hstdin⟩
  exact ⟨rfl, rfl, rfl, rfl, rfl, rfl⟩

theorem file_delivers (hdefs : List.Forall₂ (fun t d => definition t = .ok d) texts definitions)
    (optimized : Bool) {h : Host} {path : String} (count : Nat) (hpath : path ≠ "-")
    (hstruck : path ≠ "--") (hfile : h.read? path = some (text ++ feeds count)) :
    ∃ o, Options.ofArgs (evalArgs optimized texts [valued "input" path]) = .ok o ∧
      AsksValue o definitions ∧ Delivers o h text path := by
  refine ⟨_, (ofArgs_evalArgs hdefs optimized _).trans (takeArgs_input hstruck _ []), ?_,
    .file path count rfl rfl hpath hfile⟩
  exact ⟨rfl, rfl, rfl, rfl, rfl, rfl⟩

end

def twiceArgs : List String := evalArgs true ["x=1", "x=5"] [valued "code" "2 * x"]

/-- The second definition counts. -/
theorem twiceArgs_prints : ∃ o, Options.ofArgs twiceArgs = .ok o ∧
    AsksValue o [("x", 1), ("x", 5)] ∧ Delivers o {} "2 * x" "<code>" ∧
    run twiceArgs {} = (Host.print {} "10\n", .ok (.status 0)) := by
  have hdefs : List.Forall₂ (fun text d => definition text = .ok d) ["x=1", "x=5"]
      [("x", 1), ("x", 5)] := .cons rfl (.cons rfl .nil)
  have hdashes : "2 * x" ≠ "--" := by decide
  obtain ⟨o, hargs, ho, hd⟩ := code_delivers hdefs true {} hdashes
  have hfit : Expr.RunsFit "2 * x".toList := fun ds hds _ => hds.length_le.trans (by decide)
  have hx : Expr.IsFactor ['x'] := ⟨by simp, .inr (List.all_eq_true.1 rfl)⟩
  have htwo : Expr.IsFactor ['2'] := ⟨by simp, .inl (List.all_eq_true.1 rfl)⟩
  have hsum : Expr.IsSumOf [[['2'], ['x']]] "2 * x".toList := ⟨by simp, by simp [hx, htwo], rfl⟩
  have hvalue : ((Expr.evaluateText "2 * x" [("x", 5), ("x", 1)]).exec freshMemory).1 = .ok 10 := by
    rw [Expr.evaluateText_of_tree (Expr.sum_tree hfit hsum)]
    rfl
  have hfits : (10 : Int).natAbs < 10 ^ Text.Decimal.maxDigits :=
    (Nat.lt_pow_self (by decide)).trans_le (Nat.pow_le_pow_right (by decide) (by decide))
  have hagrees := run_agrees hargs ho hd (by decide) (lastWins_reverse [("x", 1), ("x", 5)])
  exact ⟨o, hargs, ho, hd, (hagrees.1 10).2 ⟨hvalue, hfits⟩⟩

/-! ### Two dashes -/

def dashArgs : List String := evalArgs false [] [valued "code" "--"]

/-- Two dashes are no expression, but as the text on the command line they are not reported. -/
theorem dashArgs_unreported :
    (∃ e, ((Expr.evaluateText "--" []).exec freshMemory).1 = .error (.fault (.noParse e)) ∧
      e.line = 1) ∧
    (∃ o, Options.ofArgs dashArgs = .ok o ∧ AsksValue o []) ∧
    (run dashArgs {}).2 = .error (.fault .wrongType) := by
  have hparse : ∀ text, Expr.expression text.toList = .ok none →
      ParserAlgebra.parse [] Expr.depth {} Expr.grammar.expression text =
        pure ⟨text, .reject (Expr.noLetter text.toList 0) 0⟩ :=
    fun text => (Expr.parse_eq text).2.1
  have hargs : Options.ofArgs dashArgs = .ok { code := some .struck, evaluate := true } := rfl
  have hwork : (contentsOf { code := some .struck, evaluate := true } .struck "<code>").exec
      freshMemory = (.error (.fault .wrongType), freshMemory) := by
    unfold contentsOf
    dsimp only
    rw [hparse "" rfl]
    rfl
  refine ⟨⟨.at "--" defaultPath (Expr.noLetter "--".toList 0) 0, ?_, rfl⟩,
    ⟨_, hargs, rfl, rfl, rfl, rfl, rfl, rfl⟩, ?_⟩
  · simp [Expr.evaluateText, parseValue, Run.exec_bind, hparse "--" rfl, Result.value]
  · rw [run, hargs]
    dsimp only
    rw [perform, if_neg Bool.false_ne_true, if_neg Bool.false_ne_true, readInput]
    dsimp only
    rw [produce, hwork]
    rfl

end ParserAlgebra.CommandLine
