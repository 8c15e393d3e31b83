import ParserAlgebra.Proofs.Optimizer.Preserve

/-!
# Late binding

A run calls a right side only after the left side has rejected, so it does not matter to it that the
rules of other right sides are still missing. Optimizing calls right sides too, but only those whose
left sides are chains of single characters. If their rules are there, an optimized parser binds as
late as the parser itself. A missing rule behind a chain is noticed although no run asks for it.
-/

namespace ParserAlgebra

open Run (Growing Follows Same)

/-- Where a run of a parser ends, the run of the optimized parser ends in the same way, whichever
rules are missing of those that stand behind no chain. -/
theorem optimize_binds_late {rules : Rules} {n : Nat} {p : Parser} {input : String} {trace : Bool}
    {m : Memory} (hp : p.Made rules) (hc : p.Collectable rules) (hm : m.Settled rules p)
    (hend : ((evaluate rules n p input trace).exec m).1 ≠ .error .exhausted) :
    ∃ k, ((parse rules k { optimized := true, trace } p input).exec m).1 =
      ((evaluate rules n p input trace).exec m).1 := by
  have hcalls : Calling rules p (Thunk.call rules) := calling rules p
  have heval : ∀ q, Growing fun k => evaluate rules k q input trace := fun q k =>
    evaluate_extends rules q input trace (Nat.le_succ k)
  have hopt := optimizable_arrives hp hcalls p .empty ⟨.refl, hc⟩
  have h : Follows Linked Same (World.empty : World rules p) (evaluate rules n p input trace)
      fun k => parse rules k { optimized := true, trace } p input :=
    hopt.then_follows (optimizeWith_growing hcalls p) heval fun w₁ q _ hform =>
      evaluate_follows hp w₁ hform.any n input trace
  obtain ⟨k, _, _, _, hA⟩ := h .empty le_rfl m m (.start hm) hend
  exact ⟨k, hA.eq⟩

/-- One of two letters, and then "ne" or what a rule stands for that is not there. -/
def oneOrLater : Parser :=
  .product 6 (.orElse 2 (.char 0 'a') (.const (.char 1 'o')))
    (.orElse 5 (.literal 3 "ne") (.rule "later"))

def oneOrLaterNodes : List Parser :=
  [oneOrLater, .orElse 2 (.char 0 'a') (.const (.char 1 'o')), .char 0 'a', .char 1 'o',
    .orElse 5 (.literal 3 "ne") (.rule "later"), .literal 3 "ne"]

theorem oneOrLater_steps {a : Parser} (h : a ∈ oneOrLaterNodes) :
    a.next? = none ∧ a.steps [] ⊆ oneOrLaterNodes := by
  simp only [oneOrLaterNodes, List.mem_cons, List.not_mem_nil, or_false] at h
  rcases h with rfl | rfl | rfl | rfl | rfl | rfl <;>
    simp [oneOrLater, oneOrLaterNodes, Parser.next?, Parser.steps, Parser.children, Parser.thunk?,
      Thunk.target, Except.toOption]

theorem oneOrLater_made : oneOrLater.Made [] := by
  refine Parser.made_of_closed oneOrLaterNodes (.head _) fun a ha => ⟨?_, oneOrLater_steps ha⟩
  simp only [oneOrLaterNodes, List.mem_cons, List.not_mem_nil, or_false] at ha
  rcases ha with rfl | rfl | rfl | rfl | rfl | rfl <;>
    simp [oneOrLater, Parser.isBare, Parser.thunk?, Thunk.Plain]

theorem oneOrLater_collectable : oneOrLater.Collectable [] := by
  intro id left right cs hs hcs
  have hall : oneOrLater.Everywhere [] (· ∈ oneOrLaterNodes) :=
    .of_closed oneOrLaterNodes (.head _) fun a ha => ⟨ha, oneOrLater_steps ha⟩
  have hmem := hall _ hs.reaches
  simp only [oneOrLaterNodes, oneOrLater, List.mem_cons, List.not_mem_nil, or_false, reduceCtorEq,
    false_or, Parser.orElse.injEq] at hmem
  rcases hmem with ⟨-, -, rfl⟩ | ⟨-, rfl, -⟩
  · exact ⟨_, rfl⟩
  · cases hcs

theorem oneOrLater_binds_late :
    ∃ k, ((parse [] k { optimized := true } oneOrLater "one").exec {}).1 =
      .ok ⟨"one", .accept (.tuple [.text "o", .text "ne"]) 3⟩ := by
  have hrun : ((evaluate [] 4 oneOrLater "one" false).exec {}).1 =
      .ok ⟨"one", .accept (.tuple [.text "o", .text "ne"]) 3⟩ := rfl
  have hend : ((evaluate [] 4 oneOrLater "one" false).exec {}).1 ≠ .error .exhausted :=
    hrun ▸ nofun
  rw [← hrun]
  exact optimize_binds_late oneOrLater_made oneOrLater_collectable (.empty _ _) hend

/-! ### A rule behind a chain -/

/-- A letter, or what a rule stands for that is not there. -/
def letterOrLater : Parser := .orElse 1 (.char 0 'a') (.rule "later")

/-- The run accepts the letter and calls nothing, but the missing rule stops the optimized one. -/
theorem letterOrLater_bound_early :
    letterOrLater.Made [] ∧
      (∀ k, (evaluate [] (k + 2) letterOrLater "a" false).exec { nextId := 2 } =
        (.ok ⟨"a", .accept (.text "a") 1⟩, { nextId := 2 })) ∧
      ∀ k, ((parse [] (k + 2) { optimized := true } letterOrLater "a").exec { nextId := 2 }).1 =
        .error (.fault (.missingKey "later")) := by
  refine ⟨?_, fun k => rfl, fun k => rfl⟩
  refine Parser.made_of_closed [letterOrLater, .char 0 'a'] (.head _) fun a ha => ?_
  simp only [List.mem_cons, List.not_mem_nil, or_false] at ha
  rcases ha with rfl | rfl <;>
    simp [letterOrLater, Parser.isBare, Parser.thunk?, Thunk.Plain, Parser.next?, Parser.steps,
      Parser.children, Thunk.target, Except.toOption]

end ParserAlgebra
