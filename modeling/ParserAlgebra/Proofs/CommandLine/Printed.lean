import ParserAlgebra.Proofs.CommandLine.Output
import ParserAlgebra.Proofs.Document

/-!
# What the tool prints for a tree

A run of the tool that asks for neither a value nor the outline of the grammar prints the tree of
the text as a document. The document is read back from what was printed, and it tells the tree, so
two runs print the same exactly if their texts have the same tree.
-/

namespace ParserAlgebra.CommandLine

open ParserAlgebra.Expr (IsTreeOf freshMemory)

/-- The options ask for the tree of a text, to be printed. -/
structure AsksTree (o : Options) : Prop where
  evaluate : o.evaluate = false
  output : o.output = none
  tree : o.tree = false
  version : o.version = false

/-- The run printed `out` for `e`, which is the tree of the text that it read. What it printed is
read back as the document of that tree. -/
structure Prints (o : Options) (h h' : Host) (e : Expr) (out : String) : Prop where
  tree : ∃ text path, readInput o h = .ok (.text text, path) ∧ ∀ e', IsTreeOf text e' ↔ e' = e
  stdout : h'.stdout = h.stdout ++ out
  toJson : e.toJson = .ok e.document
  read : Json.read out = some e.document

theorem AsksTree.render {o : Options} (ho : AsksTree o) {e : Expr}
    (hdepth : e.document.depth ≤ maxNesting) :
    render o e = .ok (e.document.write 0 ++ "\n") := by
  have hfits : ¬maxNesting < e.document.depth := Nat.not_lt.2 hdepth
  rw [CommandLine.render, if_neg (by simp [ho.evaluate]), Expr.toJson_eq]
  simp only [bind, Except.bind, hfits, if_false]
  rfl

/-- A tree that is not too deep is printed. -/
theorem run_tree {args : List String} {o : Options} {h : Host} {text path : String} {e : Expr}
    (hargs : Options.ofArgs args = .ok o) (ho : AsksTree o) (ht : o.trace = false)
    (hinput : readInput o h = .ok (.text text, path)) (he : IsTreeOf text e)
    (hdepth : e.document.depth ≤ maxNesting) :
    run args h = (h.print (e.document.write 0 ++ "\n"), .ok (.status 0)) := by
  rw [run, hargs]
  dsimp only
  rw [perform, if_neg (by simp [ho.version]), if_neg (by simp [ho.tree]), hinput]
  dsimp only
  rw [produce_quiet (contents_quiet ht text path), contentsOf_tree he, ho.render hdepth]
  dsimp only [Run.ended]
  rw [deliver, ho.output]

theorem prints {args : List String} {o : Options} {h h' : Host}
    (hargs : Options.ofArgs args = .ok o) (ho : AsksTree o)
    (hrun : run args h = (h', .ok (.status 0))) :
    ∃ e, Prints o h h' e (e.document.write 0 ++ "\n") := by
  rw [run, hargs] at hrun
  obtain ⟨contents, hshows, hdelivered⟩ := (perform_leaves hrun).success rfl ho.version
  rw [Delivered, Options.outputFile?, ho.output] at hdelivered
  cases hshows with
  | outline htree => cases ho.tree.symm.trans htree
  | value _ heval => cases ho.evaluate.symm.trans heval
  | @document text path e _ _ hinput he =>
    have htree : ∀ e', IsTreeOf text e' ↔ e' = e := fun e' =>
      ⟨fun he' => he'.unique he, fun heq => heq ▸ he⟩
    exact ⟨e, ⟨text, path, hinput, htree⟩, hdelivered.1, e.toJson_eq, Json.read_write _⟩

/-- Of two runs that print trees, the document of each is read back from its output, and the outputs
are the same exactly if the trees are. -/
theorem printed_determines {args args' : List String} {o o' : Options} {h h₁ h' h₁' : Host}
    (hargs : Options.ofArgs args = .ok o) (hargs' : Options.ofArgs args' = .ok o')
    (ho : AsksTree o) (ho' : AsksTree o') (hrun : run args h = (h₁, .ok (.status 0)))
    (hrun' : run args' h' = (h₁', .ok (.status 0))) :
    ∃ e out e' out', Prints o h h₁ e out ∧ Prints o' h' h₁' e' out' ∧ (out = out' ↔ e = e') := by
  obtain ⟨e, hprints⟩ := prints hargs ho hrun
  obtain ⟨e', hprints'⟩ := prints hargs' ho' hrun'
  refine ⟨e, _, e', _, hprints, hprints', fun hout => ?_, fun he => by rw [he]⟩
  have hread := Json.read_write e.document
  rw [hout, Json.read_write] at hread
  exact Expr.document_injective (Option.some.inj hread).symm

/-- Leading zeros do not show. -/
theorem zeros_determined : ∃ h₁ h₁',
    run ["-c", "7"] {} = (h₁, .ok (.status 0)) ∧ run ["-c", "007"] {} = (h₁', .ok (.status 0)) ∧
    ∃ e out e' out', Prints { code := some (.text "7") } {} h₁ e out ∧
      Prints { code := some (.text "007") } {} h₁' e' out' ∧ (out = out' ↔ e = e') := by
  have hfactor : ∀ w : List Char, w ≠ [] → w.all Char.isDigit = true → w.length ≤ 4300 →
      Expr.FactorOf w (.lit (Text.Decimal.ofDigits (w.map fun c => c.toNat - '0'.toNat))) :=
    fun w hne hdigits hlong => .number hne (List.all_eq_true.1 hdigits) hlong
  have hseven : IsTreeOf "7" (.lit 7) :=
    Expr.parse_whole (.one (.one (hfactor ['7'] (by simp) rfl (by decide))))
  have hzeros : IsTreeOf "007" (.lit 7) :=
    Expr.parse_whole (.one (.one (hfactor ['0', '0', '7'] (by simp) rfl (by decide))))
  have hargs : Options.ofArgs ["-c", "7"] = .ok { code := some (.text "7") } :=
    ofArgs_code (by decide)
  have hargs' : Options.ofArgs ["-c", "007"] = .ok { code := some (.text "007") } :=
    ofArgs_code (by decide)
  have hrun := run_tree (h := {}) hargs ⟨rfl, rfl, rfl, rfl⟩ rfl rfl hseven (by decide)
  have hrun' := run_tree (h := {}) hargs' ⟨rfl, rfl, rfl, rfl⟩ rfl rfl hzeros (by decide)
  exact ⟨_, _, hrun, hrun', printed_determines hargs hargs' ⟨rfl, rfl, rfl, rfl⟩
    ⟨rfl, rfl, rfl, rfl⟩ hrun hrun'⟩

end ParserAlgebra.CommandLine
