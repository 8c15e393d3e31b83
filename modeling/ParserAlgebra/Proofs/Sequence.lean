import ParserAlgebra.Proofs.Effect

/-!
# Laws of sequence

Sequences are those of a monad: a parser that accepts with a value and consumes nothing is a unit of
`bind` on both sides, and `bind` is associative. The other sequences are binds too, of the parser on
the left to a function that maps the parser on the right or gives it as it is.
-/

namespace ParserAlgebra

section

variable (cx : Context) (i : Nat)

/-- Where a function raises a fault instead of giving a parser, what was to follow that parser does
not run. -/
theorem givenEffect_map_bind (given : Except Fault Parser) (id : Nat) (label : Label)
    (next : Value → Except Fault Parser) :
    givenEffect cx i (given.map fun p => .bind id p label next) =
      (givenEffect cx i given).andThen fun v stop => givenEffect cx stop (next v) := by
  cases given with
  | ok p => simp only [Except.map, givenEffect_ok, effect_bind]
  | error f => simp only [Except.map, givenEffect_error, Effect.error_andThen]

/-- A bind whose function maps a second parser runs one after the other. -/
theorem effect_bind_map (id : Nat) (p q : Parser) (label : Label) (node : Value → Nat)
    (fn : Value → Transform) :
    (Parser.bind id p label fun v => .ok (.map (node v) q (fn v))).effect cx i =
      (p.effect cx i).andThen fun v mid =>
        (q.effect cx mid).andThen fun w stop => .accept ((fn v).apply w) stop := by
  simp only [effect_bind, givenEffect_ok, effect_map]

/-- A function mapped over a pair that cannot fail. -/
theorem effect_map_product (id id' : Nat) (p q : Parser) (fn : Transform)
    {value : Value → Value → Value} (hfn : ∀ v w, fn.apply (.tuple [v, w]) = .ok (value v w)) :
    (Parser.map id (.product id' p q) fn).effect cx i =
      (p.effect cx i).andThen fun v mid =>
        (q.effect cx mid).andThen fun w stop => pure (.accept (value v w) stop) := by
  simp only [effect_map, effect_product, Effect.andThen_assoc, Effect.accept_andThen, hfn,
    Effect.accept_ok]

end

/-- What the parser yields that a function gave, or the fault that it raised instead. -/
def EvaluatesGiven (cx : Context) (given : Except Fault Parser) (i : Nat) (m : Memory)
    (o : Except Fault Reply) (c : Cells) : Prop :=
  match given with
  | .ok p => Evaluates cx p i m o c
  | .error f => o = .error f ∧ c = m.cells

theorem evaluatesGiven_iff {cx : Context} {given : Except Fault Parser} {i : Nat} {m : Memory}
    {o : Except Fault Reply} {c : Cells} :
    EvaluatesGiven cx given i m o c ↔ givenEffect cx i given m.cells o c := by
  cases given with
  | ok p =>
    rw [givenEffect_ok]
    exact evaluates_cells.symm
  | error f =>
    rw [givenEffect_error]
    exact Iff.rfl

/-- Two sides of each law yield the same, rejections and faults included. The parser that only gives
a value is a unit of `bind`, and binds may be nested to either side; products, products with a
joining function and products of which one side is kept are binds to a function that maps the second
parser, or gives it. -/
theorem sequence_laws (cx : Context) (p q : Parser) (f g : Value → Except Fault Parser)
    (combine : Combiner) (v : Value) (label label' : Label) (node : Value → Nat) (a b : Nat) :
    (∀ i m o c, Evaluates cx (Build.result a do Build.bind (← Build.constant v) label f) i m o c ↔
      EvaluatesGiven cx (f v) i m o c) ∧
    Interchangeable cx
      (Build.result a (Build.bind p label fun x => .ok (Build.result (node x) (Build.constant x))))
      p ∧
    Interchangeable cx (Build.result a do Build.bind (← Build.bind p label f) label' g)
      (Build.result b (Build.bind p label fun x =>
        (f x).map fun r => Build.result (node x) (Build.bind r label' g))) ∧
    Interchangeable cx (Build.result a (Build.product p q))
      (Build.result b (Build.bind p label fun x =>
        .ok (Build.result (node x) (Build.map q ⟨label', fun y => .ok (.tuple [x, y])⟩)))) ∧
    Interchangeable cx (Build.result a (Build.both p q combine))
      (Build.result b (Build.bind p label fun x =>
        .ok (Build.result (node x) (Build.map q ⟨label', combine.apply x⟩)))) ∧
    Interchangeable cx (Build.result a (Build.keepLeft p q))
      (Build.result b (Build.bind p label fun x =>
        .ok (Build.result (node x) (Build.as q x)))) ∧
    Interchangeable cx (Build.result a (Build.keepRight p q))
      (Build.result b (Build.bind p label fun _ => .ok q)) := by
  refine ⟨fun i m o c => ?_, .of_effect fun i => ?_, .of_effect fun i => ?_, .of_effect fun i => ?_,
    .of_effect fun i => ?_, .of_effect fun i => ?_, .of_effect fun i => ?_⟩
  · have hunit : (Parser.bind (a + 1) (.constant a v) label f).effect cx i =
        givenEffect cx i (f v) := by
      simp only [effect_bind, effect_constant, Effect.accept_andThen]
    rw [evaluatesGiven_iff, ← hunit]
    exact evaluates_cells.symm
  · calc (Parser.bind a p label fun x => .ok (.constant (node x) x)).effect cx i
        = (p.effect cx i).andThen fun x stop => pure (.accept x stop) := by
          simp only [effect_bind, givenEffect_ok, effect_constant]
      _ = p.effect cx i := Effect.andThen_accept _
  · calc (Parser.bind (a + 1) (.bind a p label f) label' g).effect cx i
        = ((p.effect cx i).andThen fun x mid => givenEffect cx mid (f x)).andThen
            fun y stop => givenEffect cx stop (g y) := by simp only [effect_bind]
      _ = (p.effect cx i).andThen fun x mid =>
            (givenEffect cx mid (f x)).andThen fun y stop => givenEffect cx stop (g y) :=
          Effect.andThen_assoc ..
      _ = (Parser.bind b p label fun x =>
            (f x).map fun r => .bind (node x) r label' g).effect cx i := by
          simp only [effect_bind, givenEffect_map_bind]
  · calc (Parser.product a p q).effect cx i
        = (p.effect cx i).andThen fun x mid =>
            (q.effect cx mid).andThen fun y stop => pure (.accept (.tuple [x, y]) stop) :=
          effect_product ..
      _ = (Parser.bind b p label fun x =>
            .ok (.map (node x) q ⟨label', fun y => .ok (.tuple [x, y])⟩)).effect cx i := by
          simp only [effect_bind_map, Effect.accept_ok]
  · calc (Parser.both a p q combine).effect cx i
        = (p.effect cx i).andThen fun x mid =>
            (q.effect cx mid).andThen fun y stop => .accept (combine.apply x y) stop :=
          effect_both ..
      _ = (Parser.bind b p label fun x =>
            .ok (.map (node x) q ⟨label', combine.apply x⟩)).effect cx i := by
          rw [effect_bind_map]
  · calc (Parser.map (a + 1) (.product a p q) Build.keepFirst).effect cx i
        = (p.effect cx i).andThen fun x mid =>
            (q.effect cx mid).andThen fun _ stop => pure (.accept x stop) :=
          effect_map_product cx i _ _ p q _ fun _ _ => rfl
      _ = (Parser.bind b p label fun x => .ok (.map (node x) q (Build.always x))).effect cx i := by
          simp only [effect_bind_map, Build.always, Effect.accept_ok]
  · calc (Parser.map (a + 1) (.product a p q) Build.keepSecond).effect cx i
        = (p.effect cx i).andThen fun _ mid =>
            (q.effect cx mid).andThen fun y stop => pure (.accept y stop) :=
          effect_map_product cx i _ _ p q _ fun _ _ => rfl
      _ = (Parser.bind b p label fun _ => .ok q).effect cx i := by
          simp only [effect_bind, givenEffect_ok, Effect.andThen_accept]

end ParserAlgebra
