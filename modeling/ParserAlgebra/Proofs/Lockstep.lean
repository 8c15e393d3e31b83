import Mathlib
import ParserAlgebra.Evaluation

/-!
# Runs in lockstep

`Run.Lockstep S R x y` says that two runs under one bound end alike: from memories that `S` relates
they end with values that `R` relates, in the same fault, or both exhausted, and `S` relates the
memories that they leave. The lemmas follow the definitions that runs are made of. The offsets of
the two sides need not be equal: `O` relates them, and `W` relates the reasons of rejections.
-/

namespace ParserAlgebra

/-- Two outcomes with related values, or one outcome without a value. -/
inductive Alike {α β : Type} (R : α → β → Prop) : Except Halt α → Except Halt β → Prop
  | ok {a : α} {b : β} (h : R a b) : Alike R (.ok a) (.ok b)
  | halt (h : Halt) : Alike R (.error h) (.error h)

namespace Alike

variable {α β : Type}

theorem mono {R Q : α → β → Prop} {o : Except Halt α} {o' : Except Halt β} (h : Alike R o o')
    (hQ : ∀ a b, R a b → Q a b) : Alike Q o o' := by
  cases h with
  | ok h => exact .ok (hQ _ _ h)
  | halt h => exact .halt h

theorem flip {R : α → β → Prop} {o : Except Halt α} {o' : Except Halt β} (h : Alike R o o') :
    Alike (fun b a => R a b) o' o := by
  cases h with
  | ok h => exact .ok h
  | halt h => exact .halt h

theorem eq {o o' : Except Halt α} (h : Alike Eq o o') : o = o' := by
  cases h with
  | ok h => rw [h]
  | halt h => rfl

end Alike

/-- Two replies with one value, or two rejections. -/
inductive Reply.Meets (O : Nat → Nat → Prop) (W : Reason → Reason → Prop) : Reply → Reply → Prop
  | accept (v : Value) {stop stop' : Nat} (h : O stop stop') :
      Meets O W (.accept v stop) (.accept v stop')
  | reject {why why' : Reason} {start start' : Nat} (hw : W why why') (h : O start start') :
      Meets O W (.reject why start) (.reject why' start')

theorem Reply.Meets.eq {r r' : Reply} (h : r.Meets Eq Eq r') : r = r' := by
  cases h with
  | accept v h => rw [h]
  | reject hw h => rw [hw, h]

theorem Reply.Meets.refl (r : Reply) : r.Meets Eq Eq r := by
  cases r with
  | accept v stop => exact .accept v rfl
  | reject why start => exact .reject rfl rfl

namespace Run

variable {α β γ δ : Type} {S : Memory → Memory → Prop}

def Lockstep (S : Memory → Memory → Prop) (R : α → β → Prop) (x : Run α) (y : Run β) : Prop :=
  ∀ m m', S m m' → S (x.exec m).2 (y.exec m').2 ∧ Alike R (x.exec m).1 (y.exec m').1

/-- Without a bound it does not matter whether the cell is empty: the run goes nowhere from it. -/
theorem exec_once_exhaust (cell : Cell) (m : Memory) :
    (Run.once cell Run.exhaust >>= fun _ => (Run.exhaust : Run Reply)).exec m =
      (.error .exhausted, m) := by
  simp only [Run.once, exec_bind, exec_parserIn?]
  cases m.parserIn? cell <;> rfl

namespace Lockstep

variable {R : α → β → Prop} {Q : γ → δ → Prop}

theorem mono {R' : α → β → Prop} {x : Run α} {y : Run β} (h : Lockstep S R x y)
    (hR : ∀ a b, R a b → R' a b) : Lockstep S R' x y :=
  fun m m' hS => ⟨(h m m' hS).1, (h m m' hS).2.mono hR⟩

theorem flip {x : Run α} {y : Run β} (h : Lockstep S R x y) :
    Lockstep (fun m' m => S m m') (fun b a => R a b) y x :=
  fun m' m hS => ⟨(h m m' hS).1, (h m m' hS).2.flip⟩

theorem pure {a : α} {b : β} (h : R a b) : Lockstep S R (Pure.pure a) (Pure.pure b) :=
  fun _ _ hS => ⟨hS, .ok h⟩

theorem raise (f : Fault) : Lockstep S R (Run.raise f) (Run.raise f) :=
  fun _ _ hS => ⟨hS, .halt _⟩

theorem exhaust : Lockstep S R Run.exhaust Run.exhaust := fun _ _ hS => ⟨hS, .halt _⟩

theorem bind {x : Run α} {y : Run β} {f : α → Run γ} {g : β → Run δ} (hxy : Lockstep S R x y)
    (hfg : ∀ a b, R a b → Lockstep S Q (f a) (g b)) : Lockstep S Q (x >>= f) (y >>= g) := by
  intro m m' hS
  obtain ⟨hS', hA⟩ := hxy m m' hS
  rw [exec_bind, exec_bind]
  rcases hxm : x.exec m with ⟨o, n⟩
  rcases hym : y.exec m' with ⟨o', n'⟩
  rw [hxm, hym] at hS' hA
  cases hA with
  | ok h => exact hfg _ _ h n n' hS'
  | halt h => exact ⟨hS', .halt h⟩

/-- Both sides compute the same value, if there is one, and go on with it. -/
theorem ofExcept_bind {e : Except Fault α} {f : α → Run γ} {g : α → Run δ}
    (hfg : ∀ a, e = .ok a → Lockstep S Q (f a) (g a)) :
    Lockstep S Q (Run.ofExcept e >>= f) (Run.ofExcept e >>= g) := by
  intro m m' hS
  rw [exec_bind, exec_bind]
  cases e with
  | ok a => exact hfg a rfl m m' hS
  | error f => exact ⟨hS, .halt _⟩

theorem ofExcept {R : α → α → Prop} {e : Except Fault α} (h : ∀ a, e = .ok a → R a a) :
    Lockstep S R (Run.ofExcept e) (Run.ofExcept e) := by
  cases e with
  | ok a => exact pure (h a rfl)
  | error f => exact raise f

/-! ### Sequences, choices and loops -/

variable {O : Nat → Nat → Prop} {W : Reason → Reason → Prop}

theorem andThen {x y : Run Reply} {f g : Value → Nat → Run Reply}
    (hxy : Lockstep S (Reply.Meets O W) x y)
    (hfg : ∀ v i i', O i i' → Lockstep S (Reply.Meets O W) (f v i) (g v i')) :
    Lockstep S (Reply.Meets O W) (x.andThen f) (y.andThen g) := by
  refine .bind hxy fun reply reply' hr => ?_
  cases hr with
  | accept v h => exact hfg v _ _ h
  | reject hw h => exact .pure (.reject hw h)

theorem orElse {x x' y y' : Run Reply} (hxy : Lockstep S (Reply.Meets O W) x y)
    (hxy' : Lockstep S (Reply.Meets O W) x' y') :
    Lockstep S (Reply.Meets O W) (x.orElse x') (y.orElse y') := by
  refine .bind hxy fun reply reply' hr => ?_
  cases hr with
  | accept v h => exact .pure (.accept v h)
  | reject hw h => exact hxy'

theorem greedy {σ : Type} {run run' : Nat → Run Reply}
    (hO : ∀ i i' j j', O i i' → O j j' → (i = j ↔ i' = j'))
    (h : ∀ i i', O i i' → Lockstep S (Reply.Meets O W) (run i) (run' i'))
    (append : σ → Value → Except Fault σ) (budget : Nat) (s : σ) {i i' : Nat} (hi : O i i') :
    Lockstep S (fun r r' => r.1 = r'.1 ∧ O r.2 r'.2)
      (ParserAlgebra.greedy run append budget s i)
      (ParserAlgebra.greedy run' append budget s i') := by
  induction budget generalizing s i i' with
  | zero => exact .exhaust
  | succ budget ih =>
    refine .bind (h i i' hi) fun reply reply' hr => ?_
    cases hr with
    | reject hw h => exact .pure ⟨rfl, hi⟩
    | accept v h =>
      simp only [hO _ _ _ _ h hi]
      split
      · exact .pure ⟨rfl, hi⟩
      · exact .ofExcept_bind fun s' _ => ih s' h

theorem upTo {run run' : Nat → Run Reply}
    (h : ∀ i i', O i i' → Lockstep S (Reply.Meets O W) (run i) (run' i'))
    (join : Value → Value → Except Fault Value) (more count : Nat) (u : Value) {i i' : Nat}
    (hi : O i i') :
    Lockstep S (fun r r' => r.1 = r'.1 ∧ r.2.1 = r'.2.1 ∧ O r.2.2 r'.2.2)
      (ParserAlgebra.upTo run join more count u i)
      (ParserAlgebra.upTo run' join more count u i') := by
  induction more generalizing count u i i' with
  | zero => exact .pure ⟨rfl, rfl, hi⟩
  | succ more ih =>
    refine .bind (h i i' hi) fun reply reply' hr => ?_
    cases hr with
    | reject hw h => exact .pure ⟨rfl, rfl, hi⟩
    | accept v h => exact .ofExcept_bind fun u' _ => ih (count + 1) u' h

/-- Rounds go in lockstep where those of the parsers do that a seed stands for on both sides. -/
theorem rounds {run run' : Runner} {next next' : Value → Except Fault Parser}
    {P : Parser → Parser → Prop}
    (hnext : ∀ s, Lockstep S P (Run.ofExcept (next s)) (Run.ofExcept (next' s)))
    (h : ∀ p q i i', P p q → O i i' → Lockstep S (Reply.Meets O W) (run p i) (run' q i'))
    (n : Nat) (s : Value) {i i' : Nat} (hi : O i i') :
    Lockstep S (Reply.Meets O W) (ParserAlgebra.rounds run next n s i)
      (ParserAlgebra.rounds run' next' n s i') := by
  induction n generalizing s i i' with
  | zero => exact .exhaust
  | succ n ih =>
    refine .bind (hnext s) fun p q hpq => .bind (h p q i i' hpq hi) fun reply reply' hr => ?_
    cases hr with
    | reject hw h => exact .pure (.reject hw h)
    | accept v h =>
      cases v with
      | left s' => exact ih s' h
      | right u => exact .pure (.accept u h)
      | _ => exact .raise _

/-! ### Logs -/

theorem step_left {cx : Context} {n i : Nat} {run : Runner} {p : Parser} {R : Reply → β → Prop}
    {y : Run β} (hS : ∀ m m' e, S m m' → S (m.write e) m') (hp : p.unknownTag? = none)
    (h : Lockstep S R (nodeReply cx n run p i) y) :
    Lockstep S R (ParserAlgebra.step cx n run p i) y := by
  intro m m' hm
  simp only [ParserAlgebra.step, hp]
  split
  · obtain ⟨hS', hA⟩ := h (m.write (.trying p.tag i)) m' (hS _ _ _ hm)
    simp only [exec_bind, exec_write]
    rcases hx : (nodeReply cx n run p i).exec (m.write (.trying p.tag i)) with ⟨o, n'⟩
    rw [hx] at hS' hA
    cases o with
    | error halt => exact ⟨hS', hA⟩
    | ok reply =>
      cases reply with
      | accept v stop => exact ⟨hS', hA⟩
      | reject why start => exact ⟨hS _ _ _ hS', hA⟩
  · obtain ⟨hS', hA⟩ := h m m' hm
    simp only [exec_bind]
    rcases hx : (nodeReply cx n run p i).exec m with ⟨o, n'⟩
    rw [hx] at hS' hA
    cases o with
    | error halt => exact ⟨hS', hA⟩
    | ok reply => exact ⟨hS', hA⟩

/-- The two sides may log different things, since neither looks at its log. -/
theorem step {cx cx' : Context} {n i i' : Nat} {run run' : Runner} {p q : Parser}
    {R : Reply → Reply → Prop} (hS : ∀ m m' e, S m m' → S (m.write e) m')
    (hS' : ∀ m m' e, S m m' → S m (m'.write e)) (hpq : p.unknownTag? = q.unknownTag?)
    (h : Lockstep S R (nodeReply cx n run p i) (nodeReply cx' n run' q i')) :
    Lockstep S R (ParserAlgebra.step cx n run p i) (ParserAlgebra.step cx' n run' q i') := by
  cases hp : p.unknownTag? with
  | none =>
    have hright := step_left (fun m' m e => hS' m m' e) (hpq.symm.trans hp) h.flip
    exact step_left hS hp hright.flip
  | some tag =>
    simp only [ParserAlgebra.step, hp, ← hpq]
    exact .raise _

end Lockstep

end Run

end ParserAlgebra
