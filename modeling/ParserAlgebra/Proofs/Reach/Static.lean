import ParserAlgebra.Proofs.Reach

/-!
# Grammars whose nodes are all written down

A grammar in which no function chooses a parser is checked by looking at its trees.
-/

namespace ParserAlgebra

mutual

/-- No function chooses a parser, nothing is memoized or bare, and every name has a rule. -/
def Parser.static (rules : Rules) : Parser → Bool
  | .map _ source _ => source.static rules
  | .product _ left right => left.static rules && right.static rules
  | .both _ left right _ => left.static rules && right.static rules
  | .orElse _ left right => left.static rules && right.static rules
  | .many _ source _ _ => source.static rules
  | .manyBetween _ source _ _ _ _ => source.static rules
  | .collect _ source _ _ => source.static rules
  | .delayed _ thunk => thunk.static rules
  | .bind .. => false
  | .memoized .. => false
  | .loop .. => false
  | .bare .. => false
  | _ => true

def Thunk.static (rules : Rules) : Thunk → Bool
  | .const p => p.static rules
  | .rule name => (rules.lookup name).isSome
  | .optimized _ _ => false

end

def Rules.static (rules : Rules) : Bool := rules.all fun rule => rule.2.static rules

theorem Rules.static_of_lookup {rules : Rules} {name : String} {p : Parser}
    (hr : Rules.static rules = true) (h : rules.lookup name = some p) :
    p.static rules = true := by
  obtain ⟨before, after, rfl, -⟩ := List.lookup_eq_some_iff.1 h
  exact List.all_eq_true.1 hr (name, p) (by simp)

theorem Thunk.static_target {rules : Rules} {t : Thunk} {p : Parser}
    (hr : Rules.static rules = true) (ht : t.static rules = true) (h : t.target rules = .ok p) :
    p.static rules = true := by
  cases t with
  | const q =>
    cases h
    simpa only [Thunk.static] using ht
  | rule name =>
    simp only [Thunk.target] at h
    split at h
    · rename_i q hq
      cases h
      exact Rules.static_of_lookup hr hq
    · cases h
  | optimized => exact absurd ht (by simp [Thunk.static])

theorem Parser.static_of_leads {rules : Rules} {p q : Parser} (hr : Rules.static rules = true)
    (hp : p.static rules = true) (h : Leads rules p q) : q.static rules = true := by
  cases h with
  | child h =>
    cases p <;> simp_all [Parser.children, Parser.static]
    all_goals rcases h with rfl | rfl <;> simp_all
  | thunk ht h =>
    refine Thunk.static_target hr ?_ h
    cases p <;> simp_all [Parser.thunk?, Parser.static]
  | next hf h => cases p <;> simp_all [Parser.next?, Parser.static]

theorem Parser.static_of_reaches {rules : Rules} {p q : Parser} (hr : Rules.static rules = true)
    (hp : p.static rules = true) (h : Reaches rules p q) : q.static rules = true :=
  h.closed hp fun _ _ => Parser.static_of_leads hr

theorem Parser.kinded_of_static {rules : Rules} {p : Parser} (hr : Rules.static rules = true)
    (hp : p.static rules = true) : p.Kinded rules := by
  intro q hq
  have hs := Parser.static_of_reaches hr hp hq
  cases q <;> first | rfl | simp [Parser.static] at hs

theorem Parser.made_of_static {rules : Rules} {p : Parser} (hr : Rules.static rules = true)
    (hp : p.static rules = true) : p.Made rules := by
  refine ⟨Parser.kinded_of_static hr hp, fun {q t} hq ht => ?_, fun {id t t'} hq _ => ?_⟩
  · have hs := Parser.static_of_reaches hr hp hq
    cases t with
    | const | rule => trivial
    | optimized => cases q <;> simp_all [Parser.thunk?, Parser.static, Thunk.static]
  · have hs := Parser.static_of_reaches hr hp hq
    simp [Parser.static] at hs

theorem Parser.defined_of_static {rules : Rules} {p : Parser} (hr : Rules.static rules = true)
    (hp : p.static rules = true) : p.Defined rules := by
  intro id left right h
  have hs := Parser.static_of_reaches hr hp h.reaches
  rw [Parser.static, Bool.and_eq_true] at hs
  cases right with
  | const q => exact ⟨q, rfl⟩
  | rule name =>
    obtain ⟨q, hq⟩ := Option.isSome_iff_exists.1 hs.2
    exact ⟨q, by simp only [Thunk.target, hq]⟩
  | optimized => exact absurd hs.2 (by simp [Thunk.static])

end ParserAlgebra
