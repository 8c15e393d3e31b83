import ParserAlgebra.Proofs.Expr.Settings
import ParserAlgebra.Proofs.Report
import ParserAlgebra.Proofs.Yields

/-!
# What a text is found to be

A text is an expression as a whole, or is none for a reason at a place, or has a number that is too
long to be read. Which it is depends neither on the settings of the parse nor on the path that
errors name, and the value of an expression depends on no more than what its names are bound to.
-/

namespace ParserAlgebra.Expr

inductive Found where
  | tree (e : Expr)
  | failing (why : Reason) (start : Nat)
  | tooLong (digits : Nat)

/-- The outcome for a text that was found to be this, with the tree put to use. -/
def Found.outcome {α : Type} (text path : String) (use : Expr → Except Fault α) :
    Found → Except Fault α
  | .tree e => use e
  | .failing why start => .error (.noParse (.at text path why start))
  | .tooLong n => .error (.tooManyDigits n)

theorem exec_ofExcept_fst {α : Type} (e : Except Fault α) (m : Memory) :
    ((Run.ofExcept e).exec m).1 = Run.ended e := by
  rw [Run.exec_ofExcept]

/-- A parse without settings either meets a number that is too long or has a result, and what the
value of the result is on any path was found. -/
theorem parse_found (text : String) :
    (∃ n, parse false text = Run.raise (.tooManyDigits n)) ∨
      ∃ r found, parse false text = pure r ∧
        ∀ path, r.value path false = Found.outcome text path (fun e => .ok (.expr e)) found := by
  obtain ⟨herror, hreject, haccept⟩ := parse_eq text
  rcases hread : expression text.toList with f | _ | ⟨e, rest⟩
  · obtain ⟨n, rfl⟩ := expression_error hread
    exact .inl ⟨n, herror _ hread⟩
  · exact .inr ⟨_, .failing (noLetter text.toList 0) 0, hreject hread, fun path =>
      Result.value_of_reject rfl⟩
  · obtain ⟨stop, hstop, hparse⟩ := haccept e rest hread
    by_cases hend : stop = text.length
    · exact .inr ⟨_, .tree e, hparse, fun path => Result.value_of_end rfl (.inr hend)⟩
    · have hlt : stop < text.toList.length := by
        rw [String.length_toList]
        omega
      have hrest : ¬(false = true ∨ stop = text.length) := by simpa using hend
      exact .inr ⟨_,
        .failing (.trailing text.toList[stop] (Text.feedDistance text.toList stop)) stop, hparse,
        fun path => Result.value_of_rest rfl hrest (List.getElem?_eq_getElem hlt)⟩

/-- Whatever the settings and the path, the same is found. -/
theorem parseValue_found (text : String) : ∃ found : Found, ∀ settings path,
    ((parseValue [] depth settings grammar.expression text path false).exec freshMemory).1 =
      Run.ended (found.outcome text path fun e => .ok (.expr e)) := by
  rcases parse_found text with ⟨n, hparse⟩ | ⟨r, found, hparse, hvalue⟩
  · refine ⟨.tooLong n, fun settings path => ?_⟩
    obtain ⟨m, hm⟩ := parseValue_exec settings text path
    rw [hm, hparse]
    rfl
  · refine ⟨found, fun settings path => ?_⟩
    obtain ⟨m, hm⟩ := parseValue_exec settings text path
    rw [hm, hparse, ← hvalue path]
    exact exec_ofExcept_fst _ m

/-- The tree that a parse ends with is put to use, whatever else it left. -/
theorem outcome_bind {α : Type} {found : Found} {text path : String} {x : Run Value}
    {f : Value → Run α} {use : Expr → Except Fault α} {m : Memory}
    (hx : (x.exec m).1 = Run.ended (found.outcome text path fun e => .ok (.expr e)))
    (hf : ∀ e, f (.expr e) = Run.ofExcept (use e)) :
    ((x >>= f).exec m).1 = Run.ended (found.outcome text path use) := by
  rw [Run.exec_bind]
  rcases hxm : x.exec m with ⟨o, m'⟩
  rw [hxm] at hx
  dsimp only at hx
  subst hx
  cases found with
  | tree e =>
    simp only [Found.outcome, Run.ended, hf]
    exact exec_ofExcept_fst (use e) m'
  | failing why start => rfl
  | tooLong n => rfl

theorem evaluateText_outcome {text : String} {found : Found} (env : List (String × Int))
    (h : ∀ settings path,
      ((parseValue [] depth settings grammar.expression text path false).exec freshMemory).1 =
        Run.ended (found.outcome text path fun e => .ok (.expr e))) :
    ((evaluateText text env).exec freshMemory).1 =
      Run.ended (found.outcome text defaultPath fun e => e.evaluate env) :=
  outcome_bind (h {} defaultPath) fun _ => rfl

/-- Values depend on what the names are bound to. -/
theorem evaluate_congr {env env' : List (String × Int)} (h : ∀ x, env.lookup x = env'.lookup x)
    (e : Expr) : e.evaluate env = e.evaluate env' := by
  have hleaf : leafValue env = leafValue env' := by
    funext leaf
    cases leaf <;> simp only [leafValue, h]
  rw [evaluate, evaluate, hleaf]

end ParserAlgebra.Expr
