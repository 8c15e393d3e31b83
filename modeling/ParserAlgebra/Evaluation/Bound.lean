import ParserAlgebra.Parse

/-!
# Larger bounds

A run that is not exhausted is the same run under every larger bound: `optimize_extends`,
`interpret_extends` and `parse_extends` say so for optimizing, for a node and for a whole parse.
Each rests on one lemma for every definition that takes a bound, and these on the four laws of
`Run.Extends`.
-/

namespace ParserAlgebra

/-- The second run does what the first does wherever the first is not exhausted. -/
def Run.Extends {α : Type} (x y : Run α) : Prop :=
  ∀ m, (x.exec m).1 ≠ .error .exhausted → y.exec m = x.exec m

namespace Run.Extends

variable {α β : Type}

theorem refl (x : Run α) : Extends x x := fun _ _ => rfl

theorem trans {x y z : Run α} (hxy : Extends x y) (hyz : Extends y z) : Extends x z := by
  intro m hm
  have hy := hxy m hm
  rw [hyz m (hy ▸ hm), hy]

theorem exhaust (y : Run α) : Extends Run.exhaust y := fun m hm => absurd (exec_exhaust m ▸ rfl) hm

theorem bind {x y : Run α} {f g : α → Run β} (hxy : Extends x y)
    (hfg : ∀ a, Extends (f a) (g a)) : Extends (x >>= f) (y >>= g) := by
  intro m hm
  rw [exec_bind] at hm ⊢
  rw [exec_bind]
  have hx : (x.exec m).1 ≠ .error .exhausted := by
    intro e
    apply hm
    rcases hxm : x.exec m with ⟨_ | _, _⟩ <;> simp_all
  rw [hxy m hx]
  rcases hxm : x.exec m with ⟨_ | a, m'⟩
  · rfl
  · rw [hxm] at hm
    exact hfg a m' hm

theorem of_le {f : Nat → Run α} (step : ∀ n, Extends (f n) (f (n + 1))) {n k : Nat} (h : n ≤ k) :
    Extends (f n) (f k) := by
  induction h with
  | refl => exact refl _
  | step _ ih => exact ih.trans (step _)

end Run.Extends

open Run (Extends)

/-! ### Optimizing -/

theorem once_extends {x y : Run Parser} (cell : Cell) (h : Extends x y) :
    Extends (Run.once cell x) (Run.once cell y) := by
  refine .bind (.refl _) fun kept => ?_
  cases kept with
  | none => exact .bind h fun _ => .refl _
  | some p => exact .refl _

theorem leaves_extends {call call' : Thunk → Run Parser} (h : ∀ t, Extends (call t) (call' t))
    (n : Nat) (p : Parser) (seen : List Nat) :
    Extends (Chain.leaves call n p seen) (Chain.leaves call' (n + 1) p seen) := by
  induction n generalizing p seen with
  | zero => exact .exhaust _
  | succ n ih =>
    unfold Chain.leaves
    cases p <;> try exact .refl _
    case orElse id left right =>
      dsimp only
      split
      · exact .refl _
      · refine .bind (ih _ _) fun front => ?_
        rcases front with ⟨_ | front, seen⟩
        · exact .refl _
        · exact .bind (h _) fun q => .bind (ih _ _) fun _ => .refl _

theorem optimizeWith_extends {call call' : Thunk → Run Parser} (h : ∀ t, Extends (call t) (call' t))
    (n : Nat) (p : Parser) :
    Extends (optimizeWith call n p) (optimizeWith call' (n + 1) p) := by
  fun_induction optimizeWith call n p with
  | case1 id left right ih =>
    rw [optimizeWith]
    refine .bind (leaves_extends h _ _ _) fun found => ?_
    rcases found with ⟨_ | chars, _⟩
    · exact .bind (.refl _) fun _ => .bind ih fun _ => .refl _
    · exact .refl _
  | case2 _ _ _ ih => rw [optimizeWith]; exact .bind ih fun _ => .refl _
  | case3 _ _ _ _ ih => rw [optimizeWith]; exact .bind ih fun _ => .refl _
  | case4 _ _ _ left right =>
    rw [optimizeWith]
    exact .bind left fun _ => .bind right fun _ => .refl _
  | case5 _ _ _ _ left right =>
    rw [optimizeWith]
    exact .bind left fun _ => .bind right fun _ => .refl _
  | case6 _ _ _ _ ih => rw [optimizeWith]; exact .bind ih fun _ => .refl _
  | case7 _ _ _ _ _ _ ih => rw [optimizeWith]; exact .bind ih fun _ => .refl _
  | case8 _ _ _ _ ih => rw [optimizeWith]; exact .bind ih fun _ => .refl _
  | case9 _ _ _ _ part hpart => rw [optimizeWith, hpart]; exact .refl _
  | case10 _ _ _ _ hpart => rw [optimizeWith, hpart]; exact .refl _
  | case11 p => cases p <;> first | exact .refl _ | grind

theorem call_extends (rules : Rules) (n : Nat) (t : Thunk) :
    Extends (t.call rules n) (t.call rules (n + 1)) := by
  induction n generalizing t with
  | zero => exact .exhaust _
  | succ n ih =>
    cases t with
    | const p => exact .refl _
    | rule name => exact .refl _
    | optimized cell source =>
      exact once_extends _ (.bind (ih _) fun p => optimizeWith_extends ih n p)

/-- An optimized form that a bound suffices for is the same under every larger bound. -/
theorem optimize_extends (rules : Rules) (p : Parser) {n k : Nat} (h : n ≤ k) :
    Extends (optimize rules n p) (optimize rules k p) :=
  .of_le (fun n => optimizeWith_extends (call_extends rules n) n p) h

/-! ### Running -/

theorem andThen_extends {x y : Run Reply} {f g : Value → Nat → Run Reply} (h : Extends x y)
    (hfg : ∀ v i, Extends (f v i) (g v i)) : Extends (x.andThen f) (y.andThen g) := by
  refine .bind h fun reply => ?_
  cases reply with
  | accept v i => exact hfg v i
  | reject => exact .refl _

theorem greedy_extends {σ : Type} {run run' : Nat → Run Reply}
    (h : ∀ i, Extends (run i) (run' i)) (append : σ → Value → Except Fault σ)
    (budget : Nat) (state : σ) (index : Nat) :
    Extends (greedy run append budget state index) (greedy run' append budget state index) := by
  induction budget generalizing state index with
  | zero => exact .refl _
  | succ budget ih =>
    refine .bind (h index) fun reply => ?_
    cases reply with
    | reject => exact .refl _
    | accept v stop =>
      dsimp only
      split
      · exact .refl _
      · exact .bind (.refl _) fun _ => ih _ _

theorem upTo_extends {run run' : Nat → Run Reply} (h : ∀ i, Extends (run i) (run' i))
    (join : Value → Value → Except Fault Value) (more count : Nat) (value : Value) (index : Nat) :
    Extends (upTo run join more count value index) (upTo run' join more count value index) := by
  induction more generalizing count value index with
  | zero => exact .refl _
  | succ more ih =>
    refine .bind (h index) fun reply => ?_
    cases reply with
    | reject => exact .refl _
    | accept v stop => exact .bind (.refl _) fun _ => ih _ _ _

theorem rounds_extends {run run' : Runner} (h : ∀ p i, Extends (run p i) (run' p i))
    (next : Value → Except Fault Parser) (n : Nat) (seed : Value) (index : Nat) :
    Extends (rounds run next n seed index) (rounds run' next (n + 1) seed index) := by
  induction n generalizing seed index with
  | zero => exact .exhaust _
  | succ n ih =>
    refine .bind (.refl _) fun p => .bind (h p index) fun reply => ?_
    cases reply with
    | reject => exact .refl _
    | accept v stop => cases v <;> first | exact .refl _ | exact ih _ _

theorem nodeReply_extends (cx : Context) (n : Nat) {run run' : Runner}
    (h : ∀ p i, Extends (run p i) (run' p i)) (p : Parser) (index : Nat) :
    Extends (nodeReply cx n run p index) (nodeReply cx (n + 1) run' p index) := by
  cases p with
  | literal | char | charWhere | constant | identity | fail | bare => exact .refl _
  | map => exact andThen_extends (h _ _) fun _ _ => .refl _
  | bind => exact andThen_extends (h _ _) fun _ _ => .bind (.refl _) fun _ => h _ _
  | product | both =>
    exact andThen_extends (h _ _) fun _ _ => andThen_extends (h _ _) fun _ _ => .refl _
  | orElse =>
    refine .bind (h _ _) fun reply => ?_
    cases reply with
    | accept => exact .refl _
    | reject => exact .bind (call_extends _ _ _) fun _ => h _ _
  | many => exact .bind (greedy_extends (h _) _ _ _ _) fun _ => .refl _
  | manyBetween => exact .bind (upTo_extends (h _) _ _ _ _ _) fun _ => .refl _
  | collect =>
    exact .bind (.refl _) fun _ => .bind (greedy_extends (h _) _ _ _ _) fun _ => .refl _
  | delayed => exact .bind (call_extends _ _ _) fun _ => h _ _
  | memoized => exact .bind (once_extends _ (call_extends _ _ _)) fun _ => h _ _
  | loop => exact rounds_extends h _ _ _ _

theorem step_extends (cx : Context) (n : Nat) {run run' : Runner}
    (h : ∀ p i, Extends (run p i) (run' p i)) (p : Parser) (index : Nat) :
    Extends (step cx n run p index) (step cx (n + 1) run' p index) := by
  have node := nodeReply_extends cx n h p index
  unfold step
  split
  · exact .refl _
  · split
    · exact .bind (.refl _) fun _ => .bind node fun _ => .refl _
    · exact .bind node fun _ => .refl _

theorem interpret_extends_succ (cx : Context) (n : Nat) (p : Parser) (index : Nat) :
    Extends (interpret cx n p index) (interpret cx (n + 1) p index) := by
  induction n generalizing p index with
  | zero => exact .exhaust _
  | succ n ih => exact step_extends cx n ih p index

/-- A reply that a bound suffices for is the same under every larger bound. -/
theorem interpret_extends (cx : Context) (p : Parser) (index : Nat) {n k : Nat} (h : n ≤ k) :
    Extends (interpret cx n p index) (interpret cx k p index) :=
  .of_le (fun n => interpret_extends_succ cx n p index) h

/-! ### Parses -/

theorem evaluate_extends (rules : Rules) (p : Parser) (input : String) (trace : Bool) {n k : Nat}
    (h : n ≤ k) : Extends (evaluate rules n p input trace) (evaluate rules k p input trace) :=
  .bind (interpret_extends _ p 0 h) fun _ => .refl _

/-- A result that a bound suffices for is the same under every larger bound. -/
theorem parse_extends (rules : Rules) (settings : Settings) (p : Parser) (input : String)
    {n k : Nat} (h : n ≤ k) :
    Extends (parse rules n settings p input) (parse rules k settings p input) := by
  unfold parse
  split
  · exact .bind (optimize_extends rules p h) fun _ => evaluate_extends rules _ _ _ h
  · exact .bind (.refl _) fun _ => evaluate_extends rules _ _ _ h

end ParserAlgebra
