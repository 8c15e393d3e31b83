import ParserAlgebra.Proofs.Reach

/-!
# Optimizing sees finitely many nodes

What optimizing can come to are nodes of the parser's own tree and of the trees of the rules,
however the rules refer to one another.
-/

namespace ParserAlgebra

mutual

/-- The nodes of a tree, those of the parsers that its right sides are given as included. -/
def Parser.nodes : Parser → List Parser
  | .map id source fn => .map id source fn :: source.nodes
  | .bind id source label next => .bind id source label next :: source.nodes
  | .product id left right => .product id left right :: (left.nodes ++ right.nodes)
  | .both id left right combine => .both id left right combine :: (left.nodes ++ right.nodes)
  | .orElse id left right => .orElse id left right :: (left.nodes ++ right.nodes)
  | .many id source identity combine => .many id source identity combine :: source.nodes
  | .manyBetween id source minimum maximum identity combine =>
    .manyBetween id source minimum maximum identity combine :: source.nodes
  | .collect id source minimum accumulator =>
    .collect id source minimum accumulator :: source.nodes
  | .bare id tag payload children => .bare id tag payload children :: Parser.nodesAll children
  | p => [p]

def Thunk.nodes : Thunk → List Parser
  | .const p => p.nodes
  | .rule _ => []
  | .optimized _ source => source.nodes

def Parser.nodesAll : List Parser → List Parser
  | [] => []
  | p :: ps => p.nodes ++ Parser.nodesAll ps

end

theorem Parser.mem_nodes_self (p : Parser) : p ∈ p.nodes := by
  cases p <;> simp [Parser.nodes]

theorem Parser.mem_nodesAll {p : Parser} {ps : List Parser} (h : p ∈ ps) :
    p ∈ Parser.nodesAll ps := by
  induction ps with
  | nil => simp at h
  | cons a ps ih =>
    rw [Parser.nodesAll, List.mem_append]
    rcases List.mem_cons.1 h with rfl | h
    · exact .inl p.mem_nodes_self
    · exact .inr (ih h)

theorem Parser.mem_nodes_of_child {p q : Parser} (h : q ∈ p.children) : q ∈ p.nodes := by
  have hself := Parser.mem_nodes_self
  cases p <;> simp only [Parser.children, List.not_mem_nil, List.mem_singleton, List.mem_pair] at h
  case bare => exact .tail _ (Parser.mem_nodesAll h)
  all_goals try subst h
  all_goals simp [Parser.nodes, hself]
  all_goals rcases h with rfl | rfl <;> simp [hself]

theorem Parser.nodes_subset_cons {p q : Parser} {below : List Parser} (hp : p.nodes = p :: below)
    (hb : q ∈ below → q.nodes ⊆ below) (h : q ∈ p.nodes) : q.nodes ⊆ p.nodes := by
  rw [hp] at h ⊢
  rcases List.mem_cons.1 h with rfl | h
  · rw [hp]
    exact List.Subset.refl _
  · exact List.subset_cons_of_subset _ (hb h)

theorem Parser.nodes_subset_append {q : Parser} {first second : List Parser}
    (hf : q ∈ first → q.nodes ⊆ first) (hs : q ∈ second → q.nodes ⊆ second)
    (h : q ∈ first ++ second) : q.nodes ⊆ first ++ second := by
  rcases List.mem_append.1 h with h | h
  · exact List.subset_append_of_subset_left _ (hf h)
  · exact List.subset_append_of_subset_right _ (hs h)

mutual

theorem Parser.nodes_subset : ∀ (p : Parser) {q : Parser}, q ∈ p.nodes → q.nodes ⊆ p.nodes
  | .map _ source _, _, h | .bind _ source _ _, _, h | .many _ source _ _, _, h
  | .manyBetween _ source _ _ _ _, _, h | .collect _ source _ _, _, h =>
    Parser.nodes_subset_cons rfl source.nodes_subset h
  | .product _ left right, _, h | .both _ left right _, _, h =>
    Parser.nodes_subset_cons rfl (Parser.nodes_subset_append left.nodes_subset right.nodes_subset) h
  | .orElse _ left right, _, h =>
    Parser.nodes_subset_cons rfl (Parser.nodes_subset_append left.nodes_subset right.nodes_subset) h
  | .bare _ _ _ children, _, h => Parser.nodes_subset_cons rfl (Parser.nodesAll_subset children) h
  | .literal .., _, h | .char .., _, h | .charWhere .., _, h | .constant .., _, h
  | .identity .., _, h | .fail .., _, h | .delayed .., _, h | .memoized .., _, h
  | .loop .., _, h => Parser.nodes_subset_cons rfl (fun h => nomatch h) h

theorem Thunk.nodes_subset : ∀ (t : Thunk) {q : Parser}, q ∈ t.nodes → q.nodes ⊆ t.nodes
  | .const p, _, h => p.nodes_subset h
  | .rule _, _, h => nomatch h
  | .optimized _ source, _, h => source.nodes_subset h

theorem Parser.nodesAll_subset :
    ∀ (ps : List Parser) {q : Parser}, q ∈ Parser.nodesAll ps → q.nodes ⊆ Parser.nodesAll ps
  | [], _, h => nomatch h
  | p :: ps, _, h => Parser.nodes_subset_append p.nodes_subset (Parser.nodesAll_subset ps) h

end

def Parser.allNodes (rules : Rules) (p : Parser) : List Parser :=
  p.nodes ++ rules.flatMap fun rule => rule.2.nodes

theorem Thunk.mem_nodes_of_target {rules : Rules} {t : Thunk} {q : Parser}
    (h : t.target rules = .ok q) : q ∈ t.nodes ∨ ∃ rule ∈ rules, q ∈ rule.2.nodes := by
  match t with
  | .const p =>
    cases h
    exact .inl (Parser.mem_nodes_self _)
  | .rule name =>
    simp only [Thunk.target] at h
    split at h
    · rename_i p hp
      cases h
      obtain ⟨before, after, rfl, -⟩ := List.lookup_eq_some_iff.1 hp
      exact .inr ⟨(name, q), by simp, q.mem_nodes_self⟩
    · cases h
  | .optimized _ source => exact source.mem_nodes_of_target h

theorem Spans.mem_allNodes {rules : Rules} {p q : Parser} (h : Spans rules p q) :
    q ∈ p.allNodes rules := by
  refine h.closed (P := fun q => q ∈ p.allNodes rules)
    (List.mem_append_left _ p.mem_nodes_self) fun a b ha hab => ?_
  -- A step ends at a node below `a` or at a rule.
  have hb : b ∈ a.nodes ∨ ∃ rule ∈ rules, b ∈ rule.2.nodes := by
    cases hab with
    | child h => exact .inl (Parser.mem_nodes_of_child h)
    | right h =>
      refine (Thunk.mem_nodes_of_target h).imp_left fun h => ?_
      exact .tail _ (List.mem_append_right _ h)
  simp only [Parser.allNodes, List.mem_append, List.mem_flatMap] at ha ⊢
  rcases hb with hb | hb
  · rcases ha with ha | ⟨rule, hr, ha⟩
    · exact .inl (p.nodes_subset ha hb)
    · exact .inr ⟨rule, hr, rule.2.nodes_subset ha hb⟩
  · exact .inr hb

theorem Spans.finite (rules : Rules) (p : Parser) : {q | Spans rules p q}.Finite :=
  (List.finite_toSet (p.allNodes rules)).subset fun _ => Spans.mem_allNodes

/-- A way on that optimizing can take is well-founded from where it never comes back. -/
theorem Spans.acc {rules : Rules} {p : Parser} {R : Parser → Parser → Prop}
    (hR : ∀ a b, R a b → Spreads rules a b)
    (h : ∀ q, Relation.ReflTransGen R p q → ¬ Relation.TransGen R q q) :
    Acc (fun b a => R a b) p := by
  let Below := {q // Relation.ReflTransGen R p q}
  let after : Below → Below → Prop := fun b a => Relation.TransGen R a.1 b.1
  have : Finite Below :=
    ((Spans.finite rules p).subset fun _ hq => Relation.ReflTransGen.mono hR _ _ hq).to_subtype
  have : IsTrans Below after := ⟨fun _ _ _ hba hcb => hcb.trans hba⟩
  have : Std.Irrefl after := ⟨fun a ha => h a.1 a.2 ha⟩
  have hwf : WellFounded after := Finite.wellFounded_of_trans_of_irrefl after
  suffices hall : ∀ a : Below, Acc (fun b a => R a b) a.1 from hall ⟨p, .refl⟩
  intro a
  induction a using hwf.induction with
  | _ a ih => exact .intro _ fun b hb => ih ⟨b, a.2.tail hb⟩ (.single hb)

end ParserAlgebra
