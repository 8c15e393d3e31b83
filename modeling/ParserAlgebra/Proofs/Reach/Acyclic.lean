import ParserAlgebra.Proofs.Reach.Finite

/-!
# Chains without cycles

Collecting the characters of an optimized choice goes to its left side and, past a single character,
on to its right side. Where this never comes back to a choice it has entered, it comes to an end,
since optimizing sees finitely many nodes.
-/

namespace ParserAlgebra

inductive Chain.Next (rules : Rules) : Parser → Parser → Prop
  | left {id : Nat} {left : Parser} {right : Thunk} : Next rules (.orElse id left right) left
  | right {id id' : Nat} {c : Char} {right : Thunk} {q : Parser} (h : right.target rules = .ok q) :
      Next rules (.orElse id (.char id' c) right) q

theorem Chain.Next.spreads {rules : Rules} {p q : Parser} (h : Next rules p q) :
    Spreads rules p q := by
  cases h with
  | left => exact .child (.head _)
  | right h => exact .right h

/-- No choice that optimizing can come to lies on a chain that leads back to it. -/
def Parser.Acyclic (rules : Rules) (p : Parser) : Prop :=
  ∀ q, Spans rules p q → ¬ Relation.TransGen (Chain.Next rules) q q

namespace Parser.Acyclic

variable {rules : Rules} {p q : Parser}

theorem of_spreads (h : p.Acyclic rules) (hs : Spreads rules p q) : q.Acyclic rules :=
  fun r hr => h r (.head hs hr)

theorem child (h : p.Acyclic rules) (hq : q ∈ p.children) : q.Acyclic rules :=
  h.of_spreads (.child hq)

theorem acc (h : p.Acyclic rules) : Acc (fun b a => Chain.Next rules a b) p :=
  Spans.acc (fun _ _ => Chain.Next.spreads) fun q hq =>
    h q (Relation.ReflTransGen.mono (fun _ _ => Chain.Next.spreads) _ _ hq)

end Parser.Acyclic

/-- A choice was made after its two sides: its identity is the largest. -/
def Parser.descends (rules : Rules) : Parser → Bool
  | .orElse id left right =>
    left.id < id && match right.target rules with
      | .ok q => q.id < id
      | .error _ => true
  | _ => true

theorem Chain.Next.id_lt {rules : Rules} {p q : Parser} (h : Next rules p q)
    (hp : p.descends rules = true) : q.id < p.id := by
  cases h with
  | left =>
    simp only [Parser.descends, Bool.and_eq_true, decide_eq_true_eq] at hp
    exact hp.1
  | right h =>
    simp only [Parser.descends, h, Bool.and_eq_true, decide_eq_true_eq] at hp
    exact hp.2

theorem Parser.acyclic_of_descends {rules : Rules} {p : Parser}
    (h : (p.allNodes rules).all (Parser.descends rules) = true) : p.Acyclic rules := by
  have hstep : ∀ a b, Spans rules p a → Chain.Next rules a b → b.id < a.id := fun a b ha hab =>
    hab.id_lt (List.all_eq_true.1 h a ha.mem_allNodes)
  intro q hq hcycle
  have hlater : ∀ r, Relation.TransGen (Chain.Next rules) q r → Spans rules p r ∧ r.id < q.id := by
    intro r hr
    induction hr with
    | single hab => exact ⟨hq.tail hab.spreads, hstep _ _ hq hab⟩
    | tail _ hab ih => exact ⟨ih.1.tail hab.spreads, (hstep _ _ ih.1 hab).trans ih.2⟩
  exact Nat.lt_irrefl _ (hlater q hcycle).2

end ParserAlgebra
