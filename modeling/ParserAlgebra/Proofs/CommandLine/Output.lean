import ParserAlgebra.Proofs.CommandLine.Agreement
import ParserAlgebra.Proofs.Expr.RoundTrip
import ParserAlgebra.Proofs.Expr.Stacks

/-!
# Where the tool writes

A run that succeeds leaves its whole result in one place, at the end of the output or as a file, and
the rest of the host as it was. A run that fails has written to the error output alone. The file may
be the one that the text was read from, under another spelling of its path: what counts is the
absolute path.
-/

namespace ParserAlgebra

/-! ### Contents after a write -/

theorem Files.lookup_cons_ite (first old : String) (rest : Files) (name : String) :
    List.lookup name ((first, old) :: rest) =
      if name = first then some old else rest.lookup name := by
  by_cases h : name = first
  · rw [List.lookup_cons, beq_iff_eq.2 h, if_pos h]
  · rw [List.lookup_cons, beq_eq_false_iff_ne.2 h, if_neg h]

theorem Files.lookup_put (name contents : String) (files : Files) (other : String) :
    (files.put name contents).lookup other =
      if other = name then some contents else files.lookup other := by
  induction files with
  | nil => exact lookup_cons_ite name contents [] other
  | cons file rest ih =>
    obtain ⟨first, old⟩ := file
    by_cases hfirst : first = name
    · subst hfirst
      rw [put, if_pos rfl, lookup_cons_ite, lookup_cons_ite]
      split <;> rfl
    · rw [put, if_neg hfirst, lookup_cons_ite, lookup_cons_ite, ih]
      by_cases hother : other = first
      · rw [if_pos hother, if_neg (hother ▸ hfirst), if_pos hother]
      · rw [if_neg hother, if_neg hother]

theorem Host.printError_append (h : Host) (s t : String) :
    (h.printError s).printError t = h.printError (s ++ t) := by
  simp only [printError, String.append_assoc]

/-! ### Values of runs -/

theorem Run.exec_ofExcept_eq_ok {α : Type} {e : Except Fault α} {m m' : Memory} {a : α}
    (h : (ofExcept e).exec m = (.ok a, m')) : e = .ok a := by
  cases e with
  | ok b =>
    cases h
    rfl
  | error f => cases h

namespace Expr

/-- A parse of the text reads it as a whole, and this is the tree that it makes. -/
def IsTreeOf (text : String) (e : Expr) : Prop :=
  parse false text = pure ⟨text, .accept (.expr e) text.length⟩

theorem IsTreeOf.unique {text : String} {e e' : Expr} (h : IsTreeOf text e)
    (h' : IsTreeOf text e') : e = e' := by
  have heq := congrArg (fun run => (Run.exec run freshMemory).1) (h.symm.trans h')
  simpa using heq

/-- A value under any settings is the tree of the text. -/
theorem parseValue_tree {settings : Settings} {text path : String} {v : Value} {m : Memory}
    (h : (parseValue [] depth settings grammar.expression text path false).exec freshMemory =
      (.ok v, m)) : ∃ e, v = .expr e ∧ IsTreeOf text e := by
  obtain ⟨m', hm⟩ := parseValue_exec settings text path
  rw [h] at hm
  obtain ⟨herror, hreject, haccept⟩ := parse_eq text
  rcases hread : expression text.toList with f | _ | ⟨e, rest⟩
  · rw [herror f hread] at hm
    cases hm
  · rw [hreject hread] at hm
    cases hm
  · obtain ⟨stop, -, hparse⟩ := haccept e rest hread
    rw [hparse] at hm
    obtain ⟨last, hlast, hend⟩ := Result.value_ok (Run.exec_ofExcept_eq_ok hm.symm)
    cases hlast
    obtain rfl : stop = text.length := hend.resolve_left Bool.false_ne_true
    exact ⟨e, rfl, hparse⟩

theorem toJson_eq (e : Expr) : e.toJson = .ok e.document := by
  rw [toJson, fold_eq, folded_document]

end Expr

namespace CommandLine

open ParserAlgebra.Expr (Found IsTreeOf freshMemory)

/-! ### One place -/

/-- The file that the options name for the result. -/
def Options.outputFile? (o : Options) : Option String :=
  match o.output with
  | some (.text path) => if path = "" ∨ path = "-" then none else some path
  | some .struck => none
  | none => none

/-- The contents went to one place: to the end of the output, or to the file that the options name,
which holds them alone. The rest of the files and the output are as they were. -/
def Delivered (o : Options) (contents : String) (h h' : Host) : Prop :=
  match o.outputFile? with
  | none => h'.stdout = h.stdout ++ contents ∧ h'.files = h.files
  | some path => h'.stdout = h.stdout ∧ ∀ name,
      h'.files.lookup name =
        if name = h.absolute [path] then some contents else h.files.lookup name

theorem deliver_delivered (o : Options) (h : Host) (log contents : String) :
    Delivered o contents h (deliver o (h.printError log) contents) := by
  unfold Delivered Options.outputFile? deliver
  rcases o.output with _ | path | _
  · exact ⟨rfl, rfl⟩
  · by_cases hpath : path = "" ∨ path = "-"
    · simp only [hpath, if_true]
      exact ⟨rfl, rfl⟩
    · simp only [hpath, if_false]
      exact ⟨rfl, Files.lookup_put _ contents h.files⟩
  · exact ⟨rfl, rfl⟩

theorem deliver_stderr (o : Options) (h : Host) (contents : String) :
    (deliver o h contents).stderr = h.stderr := by
  unfold deliver
  rcases o.output with _ | path | _
  · rfl
  · dsimp only
    split <;> rfl
  · rfl

/-! ### The result -/

/-- The grammar, in its optimized form if the options ask for it. -/
def grammarShown (o : Options) : Run Parser :=
  if o.optimize then optimize [] Expr.depth Expr.grammar.expression
  else pure Expr.grammar.expression

/-- What a run is to show: the outline of the grammar, or of its optimized form; the value of the
text that is read, under the definitions; or the tree of that text as a document. -/
inductive Shows (o : Options) (h : Host) : String → Prop
  | outline {p : Parser} {m : Memory} {contents : String} (htree : o.tree = true)
      (hp : (grammarShown o).exec freshMemory = (.ok p, m))
      (hdump : p.dump "  " = .ok contents) : Shows o h contents
  | value {text path : String} {e : Expr} {env : List (String × Int)} {n : Int}
      (htree : o.tree = false) (heval : o.evaluate = true)
      (hinput : readInput o h = .ok (.text text, path)) (he : IsTreeOf text e)
      (henv : environment o = .ok env) (hn : e.evaluate env = .ok n) :
      Shows o h (toString n ++ "\n")
  | document {text path : String} {e : Expr} (htree : o.tree = false)
      (heval : o.evaluate = false) (hinput : readInput o h = .ok (.text text, path))
      (he : IsTreeOf text e) : Shows o h (e.document.write 0 ++ "\n")

theorem render_ok {o : Options} {e : Expr} {contents : String} (h : render o e = .ok contents) :
    (o.evaluate = true ∧ ∃ env n, environment o = .ok env ∧ e.evaluate env = .ok n ∧
      contents = toString n ++ "\n") ∨
    (o.evaluate = false ∧ contents = e.document.write 0 ++ "\n") := by
  unfold render at h
  cases heval : o.evaluate with
  | true =>
    rw [if_pos heval] at h
    refine .inl ⟨rfl, ?_⟩
    rcases henv : environment o with f | env
    · rw [henv] at h
      cases h
    · rw [henv] at h
      rcases hn : e.evaluate env with f | n
      · simp only [bind, Except.bind, hn, reduceCtorEq] at h
      · cases hwrite : Text.Decimal.write? n with
        | none => simp only [bind, Except.bind, hn, hwrite, reduceCtorEq] at h
        | some digits =>
          obtain ⟨-, rfl⟩ := write?_eq_some_iff.1 hwrite
          simp only [bind, Except.bind, hn, hwrite] at h
          cases h
          exact ⟨env, n, rfl, hn, rfl⟩
  | false =>
    rw [if_neg (by simp [heval]), Expr.toJson_eq] at h
    by_cases hdeep : maxNesting < e.document.depth
    · simp only [bind, Except.bind, hdeep, if_true, reduceCtorEq] at h
    · simp only [bind, Except.bind, hdeep, if_false] at h
      cases h
      exact .inr ⟨rfl, rfl⟩

theorem contentsOf_ok {o : Options} {argument : Argument} {path contents : String} {m : Memory}
    (h : (contentsOf o argument path).exec freshMemory = (.ok contents, m)) :
    ∃ text e, argument = .text text ∧ IsTreeOf text e ∧ render o e = .ok contents := by
  unfold contentsOf at h
  cases argument with
  | struck =>
    obtain ⟨_, _, -, hraise⟩ := Run.exec_bind_ok h
    cases hraise
  | text text =>
    obtain ⟨v, m₁, hv, hrender⟩ := Run.exec_bind_ok h
    obtain ⟨e, rfl, he⟩ := Expr.parseValue_tree hv
    exact ⟨text, e, rfl, he, Run.exec_ofExcept_eq_ok hrender⟩

theorem contentsOf_shows {o : Options} {h : Host} {argument : Argument} {path contents : String}
    {m : Memory} (htree : o.tree = false) (hinput : readInput o h = .ok (argument, path))
    (hwork : (contentsOf o argument path).exec freshMemory = (.ok contents, m)) :
    Shows o h contents := by
  obtain ⟨text, e, rfl, he, hrender⟩ := contentsOf_ok hwork
  rcases render_ok hrender with ⟨heval, env, n, henv, hn, rfl⟩ | ⟨heval, rfl⟩
  · exact .value htree heval hinput he henv hn
  · exact .document htree heval hinput he

theorem outline_eq (o : Options) :
    outline o = grammarShown o >>= fun p => Run.ofExcept (p.dump "  ") := by
  unfold outline grammarShown
  -- The two sides agree on whatever the pass is; unfolding it would run it.
  generalize optimize [] Expr.depth Expr.grammar.expression = optimized
  dsimp only
  split <;> rfl

theorem outline_shows {o : Options} {h : Host} {contents : String} {m : Memory}
    (htree : o.tree = true) (hwork : (outline o).exec freshMemory = (.ok contents, m)) :
    Shows o h contents := by
  rw [outline_eq] at hwork
  obtain ⟨p, m₁, hp, hdump⟩ := Run.exec_bind_ok hwork
  exact .outline htree hp (Run.exec_ofExcept_eq_ok hdump)

/-! ### The error output -/

theorem complaint?_ne_empty {path line : String} {f : Fault} (h : complaint? path f = some line) :
    line ≠ "" := by
  cases f with
  | noParse | unbound | tooDeep =>
    cases h
    simp [ParseError.message, report, String.append_eq_empty_iff]
  | _ => cases h

theorem logLines_eq {o : Options} {m : Memory} (hquiet : o.trace = false → m.log = [])
    (ht : o.trace = false) : logLines m = "" := by
  simp [logLines, hquiet ht]

theorem outline_quiet (o : Options) : ((outline o).exec freshMemory).2.log = [] := by
  have hR := Memory.log_onward false
  have hgrammar : Run.Moves (fun m m' => m'.log = m.log) (grammarShown o) := by
    unfold grammarShown
    split
    · exact optimize_moves hR [] Expr.depth Expr.grammar.expression
    · exact .pure hR _
  rw [outline_eq]
  exact Run.Moves.bind hR hgrammar (fun _ => .ofExcept hR _) freshMemory

theorem contentsOf_quiet {o : Options} (ht : o.trace = false) (argument : Argument)
    (path : String) : ((contentsOf o argument path).exec freshMemory).2.log = [] := by
  cases argument with
  | text text => exact contents_quiet ht text path
  | struck =>
    have hR : Memory.Onward true (Settings.mk o.optimize o.trace).trace fun m m' =>
      m'.log = m.log := ht ▸ Memory.log_onward true
    have hparse := parse_moves hR [] Expr.depth Expr.grammar.expression ""
    exact Run.Moves.bind hR hparse (fun _ => .raise hR _) freshMemory

/-! ### Runs -/

/-- How a run that came to an end has left the host. One that fails has added to the error output
alone: a line that is not empty, behind the log if there is one. -/
structure Leaves (o : Options) (h h' : Host) (exit : Exit) : Prop where
  status : exit = .status 0 ∨ exit = .status 1
  failure : exit = .status 1 → ∃ log line, line ≠ "" ∧ (o.trace = false → log = "") ∧
    h' = h.printError (log ++ line ++ "\n")
  success : exit = .status 0 → o.version = false → ∃ contents, Shows o h contents ∧
    Delivered o contents h h'
  quiet : exit = .status 0 → o.trace = false → h'.stderr = h.stderr

section

variable {o : Options} {h h' : Host}

theorem Leaves.complained {log line : String} (hline : line ≠ "")
    (hlog : o.trace = false → log = "") :
    Leaves o h (h.printError (log ++ line ++ "\n")) (.status 1) :=
  ⟨.inr rfl, fun _ => ⟨log, line, hline, hlog, rfl⟩, nofun, nofun⟩

theorem Leaves.delivered {log contents : String} (hshows : Shows o h contents)
    (hlog : o.trace = false → log = "") :
    Leaves o h (deliver o (h.printError log) contents) (.status 0) := by
  refine ⟨.inl rfl, nofun, fun _ _ => ?_, fun _ ht => ?_⟩
  · exact ⟨contents, hshows, deliver_delivered o h log contents⟩
  · rw [deliver_stderr, hlog ht, printError_empty]

theorem produce_leaves {path : String} {work : Run String} {exit : Exit}
    (hshows : ∀ {contents m}, work.exec freshMemory = (.ok contents, m) → Shows o h contents)
    (hquiet : o.trace = false → (work.exec freshMemory).2.log = [])
    (hrun : produce o h path work = (h', .ok exit)) : Leaves o h h' exit := by
  unfold produce at hrun
  rcases hwork : work.exec freshMemory with ⟨(f | _) | contents, m⟩
  · rw [hwork] at hrun hquiet
    dsimp only at hrun
    cases hline : complaint? path f with
    | none =>
      rw [hline] at hrun
      cases hrun
    | some line =>
      rw [hline] at hrun
      dsimp only at hrun
      rw [Host.printError_append, ← String.append_assoc] at hrun
      cases hrun
      exact .complained (complaint?_ne_empty hline) (logLines_eq hquiet)
  · rw [hwork] at hrun
    cases hrun
  · rw [hwork] at hrun hquiet
    cases hrun
    exact .delivered (hshows hwork) (logLines_eq hquiet)

theorem perform_leaves {exit : Exit} (hrun : perform o h = (h', .ok exit)) :
    Leaves o h h' exit := by
  unfold perform at hrun
  cases hversion : o.version with
  | true =>
    rw [if_pos hversion] at hrun
    cases hrun
    exact ⟨.inl rfl, nofun, fun _ hv => absurd hv (by simp [hversion]), fun _ _ => rfl⟩
  | false =>
    rw [if_neg (by simp [hversion])] at hrun
    cases htree : o.tree with
    | true =>
      rw [if_pos htree] at hrun
      exact produce_leaves (outline_shows htree) (fun _ => outline_quiet o) hrun
    | false =>
      rw [if_neg (by simp [htree])] at hrun
      match hinput : readInput o h with
      | .ok (argument, path) =>
        rw [hinput] at hrun
        exact produce_leaves (contentsOf_shows htree hinput)
          (fun ht => contentsOf_quiet ht argument path) hrun
      | .error (.noSuchFile path) =>
        have hline : "Error: no such file: \"" ++ path ++ "\"\n" =
            "" ++ ("Error: no such file: \"" ++ path ++ "\"") ++ "\n" := by
          have hend : "\"\n" = "\"" ++ "\n" := by decide
          rw [String.empty_append, hend, ← String.append_assoc]
        rw [hinput] at hrun
        dsimp only at hrun
        rw [hline] at hrun
        cases hrun
        exact .complained (by simp [String.append_eq_empty_iff]) fun _ => rfl
      | .error .noPath =>
        rw [hinput] at hrun
        cases hrun

end

/-- Whatever the options and the host, a run that fails has written to the error output alone, and
one that succeeds has left what it was to show in one place. -/
theorem run_leaves {args : List String} {o : Options} {h h' : Host} {exit : Exit}
    (hargs : Options.ofArgs args = .ok o) (hrun : run args h = (h', .ok exit)) :
    Leaves o h h' exit := by
  rw [run, hargs] at hrun
  exact perform_leaves hrun

/-! ### A file that is read and written -/

theorem contentsOf_tree {o : Options} {text path : String} {e : Expr} (he : IsTreeOf text e) :
    ((contentsOf o (.text text) path).exec freshMemory).1 = Run.ended (render o e) := by
  have hfound : ∀ settings path, ((parseValue [] Expr.depth settings Expr.grammar.expression text
      path false).exec freshMemory).1 =
        Run.ended ((Found.tree e).outcome text path fun e => .ok (.expr e)) := by
    intro settings path
    obtain ⟨m, hm⟩ := Expr.parseValue_exec settings text path
    rw [hm, he, Run.exec_pure]
    dsimp only
    rw [Result.value_of_end rfl (.inr rfl), Run.exec_ofExcept_ok]
    rfl
  exact contents_found hfound

def sumArgs : List String := ["-e", "-Dx=5", "-i", "sum.txt", "-o", "./sum.txt"]

def sumHost : Host := { files := [("/tmp/sum.txt", "1 + 2 * x\n"), ("/tmp/b.txt", "b")] }

/-- The value takes the place of the text. -/
theorem sumArgs_leaves : ∃ o h', Options.ofArgs sumArgs = .ok o ∧
    run sumArgs sumHost = (h', .ok (.status 0)) ∧
    h'.files = [("/tmp/sum.txt", "11\n"), ("/tmp/b.txt", "b")] ∧
    Leaves o sumHost h' (.status 0) := by
  let o : Options :=
    { definitions := [some ("x", 5)], evaluate := true, input := .text "sum.txt",
      output := some (.text "./sum.txt") }
  let e : Expr := .add (.lit 1) (.mul (.lit 2) (.var "x"))
  have hargs : Options.ofArgs sumArgs = .ok o := by rfl
  have hone : Expr.FactorOf ['1'] (.lit 1) := .number (by simp) (List.all_eq_true.1 rfl) (by decide)
  have htwo : Expr.FactorOf ['2'] (.lit 2) := .number (by simp) (List.all_eq_true.1 rfl) (by decide)
  have hx : Expr.FactorOf ['x'] (.var "x") := .name (by simp) (List.all_eq_true.1 rfl)
  have hproduct : Expr.TermOf "2 * x".toList (.mul (.lit 2) (.var "x")) := .more htwo (.one hx)
  have hsum : Expr.ExpressionOf (['1'] ++ [' ', '+', ' '] ++ "2 * x".toList) e :=
    .more (.one hone) (.one hproduct)
  have he : IsTreeOf "1 + 2 * x" e := Expr.parse_whole hsum
  have hinput : readInput o sumHost = .ok (.text "1 + 2 * x", "sum.txt") := by rfl
  have hwrite : Text.Decimal.write? 11 = some "11" :=
    write?_eq_some_iff.2 ⟨(Nat.lt_pow_self (by decide)).trans_le
      (Nat.pow_le_pow_right (by decide) (by decide)), rfl⟩
  have hrender : render o e = .ok "11\n" := by
    have henv : environment o = .ok [("x", 5)] := rfl
    have hn : e.evaluate [("x", 5)] = .ok 11 := by rw [Expr.evaluate_eq]; rfl
    rw [render, if_pos rfl, henv]
    simp only [bind, Except.bind, hn, hwrite]
    rfl
  have hrun : run sumArgs sumHost = (deliver o sumHost "11\n", .ok (.status 0)) := by
    rw [run, hargs]
    dsimp only
    rw [perform, if_neg Bool.false_ne_true, if_neg Bool.false_ne_true, hinput]
    dsimp only
    rw [produce_quiet (contents_quiet rfl "1 + 2 * x" "sum.txt"), contentsOf_tree he, hrender]
    rfl
  exact ⟨o, _, hargs, hrun, by rfl, run_leaves hargs hrun⟩

end CommandLine

end ParserAlgebra
