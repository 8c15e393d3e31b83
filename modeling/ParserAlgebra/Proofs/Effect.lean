import ParserAlgebra.Proofs.Yields

/-!
# Effects

The effect of a family of runs tells, without bounds, which outcome and which cells it yields from
given cells. Effects are put in a row as runs are, which makes them a monad, and the effect of a
node is made of the effects of the parsers below it. So two parsers do the same everywhere if
their effects are equal by the laws of monads.
-/

namespace ParserAlgebra

open Run (Yields Steady)

/-- From cells to an outcome and the cells that are left, if anything is yielded from them. -/
def Effect (α : Type) : Type := Cells → Except Fault α → Cells → Prop

namespace Effect

variable {α β γ : Type}

theorem ext {x y : Effect α} (h : ∀ c o c', x c o c' ↔ y c o c') : x = y :=
  funext fun c => funext fun o => funext fun c' => propext (h c o c')

/-- Gives an outcome and leaves the cells. -/
def give (e : Except Fault α) : Effect α := fun c o c' => o = e ∧ c' = c

def bind (x : Effect α) (f : α → Effect β) : Effect β := fun c o c' =>
  (∃ e, o = .error e ∧ x c (.error e) c') ∨ ∃ a mid, x c (.ok a) mid ∧ f a mid o c'

instance : Monad Effect where
  pure a := give (.ok a)
  bind := bind

theorem pure_def (a : α) : (pure a : Effect α) = give (.ok a) := rfl

theorem give_error_bind (e : Fault) (f : α → Effect β) :
    give (.error e) >>= f = give (.error e) := by
  refine ext fun c o c' => ⟨?_, ?_⟩
  · rintro (⟨e', rfl, he, hc⟩ | ⟨a, mid, ha, -⟩)
    · cases he
      exact ⟨rfl, hc⟩
    · cases ha.1
  · rintro ⟨rfl, rfl⟩
    exact .inl ⟨e, rfl, rfl, rfl⟩

protected theorem id_map (x : Effect α) : id <$> x = x := by
  refine ext fun c o c' => ⟨?_, fun h => ?_⟩
  · rintro (⟨e, rfl, h⟩ | ⟨a, mid, h, rfl, rfl⟩) <;> exact h
  · cases o with
    | error e => exact .inl ⟨e, rfl, h⟩
    | ok a => exact .inr ⟨a, c', h, rfl, rfl⟩

protected theorem pure_bind (a : α) (f : α → Effect β) : pure a >>= f = f a := by
  refine ext fun c o c' => ⟨?_, fun h => .inr ⟨a, c, ⟨rfl, rfl⟩, h⟩⟩
  rintro (⟨e, rfl, he, -⟩ | ⟨b, mid, ⟨hb, rfl⟩, h⟩)
  · cases he
  · cases hb
    exact h

protected theorem bind_assoc (x : Effect α) (f : α → Effect β) (g : β → Effect γ) :
    x >>= f >>= g = x >>= fun a => f a >>= g := by
  refine ext fun c o c' => ⟨?_, ?_⟩
  · rintro (⟨e, rfl, ⟨e', he, h⟩ | ⟨a, mid, ha, h⟩⟩ | ⟨b, mid, ⟨e', he, -⟩ | ⟨a, first, ha, hb⟩, h⟩)
    · cases he
      exact .inl ⟨_, rfl, h⟩
    · exact .inr ⟨a, mid, ha, .inl ⟨e, rfl, h⟩⟩
    · cases he
    · exact .inr ⟨a, first, ha, .inr ⟨b, mid, hb, h⟩⟩
  · rintro (⟨e, rfl, h⟩ | ⟨a, first, ha, ⟨e, rfl, h⟩ | ⟨b, mid, hb, h⟩⟩)
    · exact .inl ⟨e, rfl, .inl ⟨e, rfl, h⟩⟩
    · exact .inl ⟨e, rfl, .inr ⟨a, first, ha, h⟩⟩
    · exact .inr ⟨b, mid, .inr ⟨a, first, ha, hb⟩, h⟩

instance : LawfulMonad Effect := .mk' Effect Effect.id_map Effect.pure_bind Effect.bind_assoc

/-! ### Sequences and choices -/

/-- Goes on after an acceptance; a rejection is the answer. -/
def andThen (x : Effect Reply) (f : Value → Nat → Effect Reply) : Effect Reply :=
  x >>= fun
    | .accept v stop => f v stop
    | .reject why start => pure (.reject why start)

/-- Goes on after a rejection; an acceptance is the answer. -/
def orElse (x y : Effect Reply) : Effect Reply :=
  x >>= fun
    | .accept v stop => pure (.accept v stop)
    | .reject _ _ => y

/-- Accepts with an outcome at an offset. -/
def accept (e : Except Fault Value) (stop : Nat) : Effect Reply :=
  give e >>= fun v => pure (.accept v stop)

variable (x y z : Effect Reply) (f g : Value → Nat → Effect Reply)

@[simp] theorem accept_ok (v : Value) (stop : Nat) :
    accept (.ok v) stop = pure (.accept v stop) := by
  rw [accept, ← pure_def, pure_bind]

@[simp] theorem accept_andThen (v : Value) (stop : Nat) :
    (pure (.accept v stop) : Effect Reply).andThen f = f v stop := by
  rw [andThen, pure_bind]

@[simp] theorem error_andThen (e : Fault) :
    (give (.error e) : Effect Reply).andThen f = give (.error e) :=
  give_error_bind ..

@[simp] theorem reject_andThen (why : Reason) (start : Nat) :
    (pure (.reject why start) : Effect Reply).andThen f = pure (.reject why start) := by
  rw [andThen, pure_bind]

@[simp] theorem andThen_accept : x.andThen (fun v stop => pure (.accept v stop)) = x := by
  calc x.andThen (fun v stop => pure (.accept v stop))
      = x >>= pure := bind_congr fun reply => by cases reply <;> rfl
    _ = x := bind_pure x

theorem andThen_congr {x : Effect Reply} {f g : Value → Nat → Effect Reply}
    (h : ∀ v stop, f v stop = g v stop) : x.andThen f = x.andThen g := by
  rw [funext fun v => funext fun stop => h v stop]

theorem andThen_assoc : (x.andThen f).andThen g = x.andThen fun v stop => (f v stop).andThen g := by
  simp only [andThen, bind_assoc]
  refine bind_congr fun reply => ?_
  cases reply with
  | accept v stop => rfl
  | reject why start => exact pure_bind ..

@[simp] theorem accept_orElse (v : Value) (stop : Nat) :
    (pure (.accept v stop) : Effect Reply).orElse y = pure (.accept v stop) := by
  rw [orElse, pure_bind]

@[simp] theorem reject_orElse (why : Reason) (start : Nat) :
    (pure (.reject why start) : Effect Reply).orElse y = y := by
  rw [orElse, pure_bind]

theorem orElse_assoc : (x.orElse y).orElse z = x.orElse (y.orElse z) := by
  simp only [orElse, bind_assoc]
  refine bind_congr fun reply => ?_
  cases reply with
  | accept v stop => exact pure_bind ..
  | reject why start => rfl

@[simp] theorem accept_outcome_orElse (e : Except Fault Value) (stop : Nat) :
    (accept e stop).orElse y = accept e stop := by
  simp only [accept, orElse, bind_assoc, pure_bind]

/-- What is made of an acceptance without rejecting is made in each alternative. -/
theorem orElse_andThen_accept (e : Value → Except Fault Value) :
    (x.orElse y).andThen (fun v stop => accept (e v) stop) =
      (x.andThen fun v stop => accept (e v) stop).orElse
        (y.andThen fun v stop => accept (e v) stop) := by
  simp only [orElse, andThen, bind_assoc]
  refine bind_congr fun reply => ?_
  cases reply with
  | accept v stop =>
    rw [pure_bind]
    exact (accept_outcome_orElse _ (e v) stop).symm
  | reject why start => rw [pure_bind]

end Effect

/-! ### Effects of runs -/

namespace Run

variable {α β : Type}

def effect (y : Nat → Run α) : Effect α := fun c o c' => Yields y c.memory o c'

theorem effect_ofExcept (e : Except Fault α) :
    effect (fun _ => Run.ofExcept e) = .give e :=
  Effect.ext fun _ _ _ => Yields.ofExcept_iff

theorem effect_pure (a : α) : effect (fun _ => pure a) = pure a := effect_ofExcept (.ok a)

theorem effect_bind {y : Nat → Run α} {g : Nat → α → Run β} (hy : Steady y)
    (hg : ∀ a, Steady fun k => g k a) :
    effect (fun k => y k >>= g k) = effect y >>= fun a => effect fun k => g k a := by
  refine Effect.ext fun c o c' => ⟨Yields.bind_cases hg, ?_⟩
  rintro (⟨e, rfl, h⟩ | ⟨a, mid, ha, h⟩)
  · exact .bind_error h
  · exact .bind_ok hy.growing (hg a) ha h

theorem effect_succ {y : Nat → Run α} (hy : Steady y) :
    effect (fun k => y (k + 1)) = effect y :=
  Effect.ext fun _ _ _ => Yields.succ_iff hy.growing

theorem effect_andThen {x : Nat → Run Reply} {f : Nat → Value → Nat → Run Reply} (hx : Steady x)
    (hf : ∀ v stop, Steady fun k => f k v stop) :
    effect (fun k => (x k).andThen (f k)) =
      (effect x).andThen fun v stop => effect fun k => f k v stop := by
  unfold Run.andThen
  rw [effect_bind hx fun reply => ?steady]
  case steady =>
    cases reply with
    | accept v stop => exact hf v stop
    | reject why start => exact .pure _
  refine bind_congr fun reply => ?_
  cases reply with
  | accept v stop => rfl
  | reject why start => exact effect_pure _

theorem effect_orElse {x y : Nat → Run Reply} (hx : Steady x) (hy : Steady y) :
    effect (fun k => (x k).orElse (y k)) = (effect x).orElse (effect y) := by
  unfold Run.orElse
  rw [effect_bind hx fun reply => ?steady]
  case steady =>
    cases reply with
    | accept v stop => exact .pure _
    | reject why start => exact hy
  refine bind_congr fun reply => ?_
  cases reply with
  | accept v stop => exact effect_pure _
  | reject why start => rfl

/-- An acceptance with the outcome of a function. -/
theorem effect_accept (e : Except Fault Value) (stop : Nat) :
    effect (fun _ => Run.ofExcept e >>= fun v => pure (Reply.accept v stop)) =
      .accept e stop := by
  rw [effect_bind (.ofExcept e) fun _ => .pure _, effect_ofExcept]
  exact bind_congr fun v => effect_pure _

end Run

open Run (effect effect_andThen effect_orElse)

/-! ### Effects of parsers -/

/-- What the run of a parser at an offset yields. -/
def Parser.effect (cx : Context) (p : Parser) (i : Nat) : Effect Reply :=
  Run.effect fun k => interpret cx k p i

section

variable (cx : Context) (i : Nat)

theorem effect_node {p : Parser} (hp : p.unknownTag? = none) :
    p.effect cx i = effect fun k => nodeReply cx k (interpret cx k) p i :=
  Effect.ext fun _ _ _ => evaluates_iff hp

@[simp] theorem effect_constant (id : Nat) (v : Value) :
    (Parser.constant id v).effect cx i = pure (.accept v i) :=
  (effect_node cx i rfl).trans (Run.effect_pure _)

@[simp] theorem effect_fail (id : Nat) (reason : String) :
    (Parser.fail id reason).effect cx i = pure (.reject (.stated reason) i) :=
  (effect_node cx i rfl).trans (Run.effect_pure _)

@[simp] theorem effect_map (id : Nat) (p : Parser) (fn : Transform) :
    (Parser.map id p fn).effect cx i =
      (p.effect cx i).andThen fun v stop => .accept (fn.apply v) stop := by
  rw [effect_node cx i rfl]
  refine (effect_andThen (interpret_steady cx p i) fun v stop => ?_).trans ?_
  · exact .bind (.ofExcept _) fun _ => .pure _
  · exact Effect.andThen_congr fun v stop => Run.effect_accept (fn.apply v) stop

/-- What the parser yields that a function gave, or the fault that it raised instead. -/
def givenEffect (given : Except Fault Parser) : Effect Reply :=
  .give given >>= fun p => p.effect cx i

@[simp] theorem givenEffect_ok (p : Parser) : givenEffect cx i (.ok p) = p.effect cx i :=
  pure_bind ..

@[simp] theorem givenEffect_error (f : Fault) : givenEffect cx i (.error f) = .give (.error f) :=
  Effect.give_error_bind ..

@[simp] theorem effect_bind (id : Nat) (p : Parser) (label : Label)
    (next : Value → Except Fault Parser) : (Parser.bind id p label next).effect cx i =
      (p.effect cx i).andThen fun v stop => givenEffect cx stop (next v) := by
  rw [effect_node cx i rfl]
  have hgiven : ∀ v stop, Run.Steady fun k => Run.ofExcept (next v) >>= fun q =>
      interpret cx k q stop := fun v stop => .bind (.ofExcept _) fun q => interpret_steady cx q stop
  refine (effect_andThen (interpret_steady cx p i) hgiven).trans ?_
  refine Effect.andThen_congr fun v stop => ?_
  rw [Run.effect_bind (.ofExcept _) fun q => interpret_steady cx q stop, Run.effect_ofExcept]
  rfl

@[simp] theorem effect_product (id : Nat) (p q : Parser) : (Parser.product id p q).effect cx i =
    (p.effect cx i).andThen fun v mid =>
      (q.effect cx mid).andThen fun w stop => pure (.accept (.tuple [v, w]) stop) := by
  rw [effect_node cx i rfl]
  have hsecond : ∀ v mid, Run.Steady fun k => (interpret cx k q mid).andThen fun w stop =>
      pure (.accept (.tuple [v, w]) stop) :=
    fun v mid => .andThen (interpret_steady cx q mid) fun w stop => .pure _
  refine (effect_andThen (interpret_steady cx p i) hsecond).trans ?_
  refine Effect.andThen_congr fun v mid => ?_
  refine (effect_andThen (interpret_steady cx q mid) fun w stop => .pure _).trans ?_
  exact Effect.andThen_congr fun w stop => Run.effect_pure _

@[simp] theorem effect_both (id : Nat) (p q : Parser) (combine : Combiner) :
    (Parser.both id p q combine).effect cx i =
      (p.effect cx i).andThen fun v mid =>
        (q.effect cx mid).andThen fun w stop => .accept (combine.apply v w) stop := by
  rw [effect_node cx i rfl]
  have hlast : ∀ v w stop, Run.Steady fun _ => Run.ofExcept (combine.apply v w) >>= fun u =>
      pure (Reply.accept u stop) := fun v w stop => .bind (.ofExcept _) fun _ => .pure _
  have hsecond : ∀ v mid, Run.Steady fun k => (interpret cx k q mid).andThen fun w stop =>
      Run.ofExcept (combine.apply v w) >>= fun u => pure (.accept u stop) :=
    fun v mid => .andThen (interpret_steady cx q mid) (hlast v)
  refine (effect_andThen (interpret_steady cx p i) hsecond).trans ?_
  refine Effect.andThen_congr fun v mid => ?_
  refine (effect_andThen (interpret_steady cx q mid) (hlast v)).trans ?_
  exact Effect.andThen_congr fun w stop => Run.effect_accept _ stop

theorem call_const_steady (rules : Rules) (q : Parser) :
    Run.Steady fun k => (Thunk.const q).call rules k where
  growing k := call_extends rules k _
  blind k := by
    cases k with
    | zero => exact .exhaust
    | succ k => exact .pure rfl

@[simp] theorem effect_orElse_const (id : Nat) (p q : Parser) :
    (Parser.orElse id p (.const q)).effect cx i = (p.effect cx i).orElse (q.effect cx i) := by
  rw [effect_node cx i rfl]
  have hcall := call_const_steady cx.rules q
  refine (effect_orElse (interpret_steady cx p i)
    (.bind hcall fun q => interpret_steady cx q i)).trans ?_
  have hright : (effect fun k => (Thunk.const q).call cx.rules k) = pure q :=
    (Run.effect_succ hcall).symm.trans (Run.effect_pure q)
  rw [Run.effect_bind hcall fun q => interpret_steady cx q i, hright, pure_bind]
  rfl

end

/-! ### Parsers that may stand for each other -/

/-- What one parser yields the other yields too, at every offset and from every memory, one ending
exactly when the other does. -/
def Interchangeable (cx : Context) (p q : Parser) : Prop :=
  ∀ i m o c, Evaluates cx p i m o c ↔ Evaluates cx q i m o c

theorem Interchangeable.of_effect {cx : Context} {p q : Parser}
    (h : ∀ i, p.effect cx i = q.effect cx i) : Interchangeable cx p q := by
  intro i m o c
  calc Evaluates cx p i m o c
      ↔ p.effect cx i m.cells o c := evaluates_cells.symm
    _ ↔ q.effect cx i m.cells o c := by rw [h i]
    _ ↔ Evaluates cx q i m o c := evaluates_cells

end ParserAlgebra
