import ParserAlgebra.Proofs.Cells
import ParserAlgebra.Proofs.Follow

/-!
# What runs yield

A run has a bound on its depth, and what it ends with does not change once the bound suffices.
`Run.Yields y m o c` says that for some bound the run `y k` has the outcome `o` from the memory `m`
and leaves the cells `c`. This is a relation without bounds: what two runs in a row yield is told by
what each of them yields. A family of runs is `Steady` if larger bounds extend it and if it looks at
nothing but the cells.
-/

namespace ParserAlgebra

namespace Run

variable {α β : Type}

/-- The outcome of a run that was not exhausted. -/
def ended : Except Fault α → Except Halt α
  | .ok a => .ok a
  | .error f => .error (.fault f)

theorem ended_injective {o o' : Except Fault α} (h : ended o = ended o') : o = o' := by
  cases o <;> cases o' <;> cases h <;> rfl

theorem ended_ne_exhausted (o : Except Fault α) : ended o ≠ .error .exhausted := by
  cases o <;> exact nofun

theorem exec_ofExcept (e : Except Fault α) (m : Memory) :
    (ofExcept e).exec m = (ended e, m) := by
  cases e <;> rfl

def Yields (y : Nat → Run α) (m : Memory) (o : Except Fault α) (c : Cells) : Prop :=
  ∃ k, ((y k).exec m).1 = ended o ∧ ((y k).exec m).2.cells = c

structure Steady (y : Nat → Run α) : Prop where
  growing : Growing y
  blind : ∀ k, Lockstep Memory.SameCells Eq (y k) (y k)

namespace Steady

theorem pure (a : α) : Steady fun _ => Pure.pure a := ⟨.const _, fun _ => .pure rfl⟩

theorem raise (f : Fault) : Steady fun _ => (Run.raise f : Run α) :=
  ⟨.const _, fun _ => .raise f⟩

theorem ofExcept (e : Except Fault α) : Steady fun _ => Run.ofExcept e :=
  ⟨.const _, fun _ => .ofExcept fun _ _ => rfl⟩

theorem bind {y : Nat → Run α} {g : Nat → α → Run β} (hy : Steady y)
    (hg : ∀ a, Steady fun k => g k a) : Steady fun k => y k >>= g k :=
  ⟨hy.growing.bind fun a => (hg a).growing,
    fun k => .bind (hy.blind k) fun a _ he => he ▸ (hg a).blind k⟩

theorem succ {y : Nat → Run α} (hy : Steady y) : Steady fun k => y (k + 1) :=
  ⟨fun k => hy.growing (k + 1), fun k => hy.blind (k + 1)⟩

theorem meets {y : Nat → Run Reply} (hy : Steady y) (k : Nat) :
    Lockstep Memory.SameCells (Reply.Meets Eq Eq) (y k) (y k) :=
  (hy.blind k).mono fun r _ he => he ▸ .refl r

theorem andThen {y : Nat → Run Reply} {g : Nat → Value → Nat → Run Reply} (hy : Steady y)
    (hg : ∀ v i, Steady fun k => g k v i) : Steady fun k => (y k).andThen (g k) := by
  refine .bind hy fun reply => ?_
  cases reply with
  | accept v stop => exact hg v stop
  | reject why start => exact .pure _

theorem greedy {σ : Type} {run : Nat → Nat → Run Reply} (h : ∀ i, Steady fun k => run k i)
    (append : σ → Value → Except Fault σ) (budget : Nat) (s : σ) (i : Nat) :
    Steady fun k => ParserAlgebra.greedy (run k) append budget s i := by
  refine ⟨fun k => greedy_extends (fun j => (h j).growing k) append budget s i, fun k => ?_⟩
  have hstep := Lockstep.greedy (O := Eq) (W := Eq) (fun _ _ _ _ hi hj => by rw [hi, hj])
    (fun j j' hj => by subst hj; exact (h j).meets k) append budget s (rfl : i = i)
  exact hstep.mono fun _ _ hr => Prod.ext hr.1 hr.2

theorem upTo {run : Nat → Nat → Run Reply} (h : ∀ i, Steady fun k => run k i)
    (join : Value → Value → Except Fault Value) (more count : Nat) (u : Value) (i : Nat) :
    Steady fun k => ParserAlgebra.upTo (run k) join more count u i := by
  refine ⟨fun k => upTo_extends (fun j => (h j).growing k) join more count u i, fun k => ?_⟩
  have hstep := Lockstep.upTo (O := Eq) (W := Eq)
    (fun j j' hj => by subst hj; exact (h j).meets k) join more count u (rfl : i = i)
  exact hstep.mono fun _ _ hr => Prod.ext hr.1 (Prod.ext hr.2.1 hr.2.2)

theorem rounds {run : Nat → Runner} (h : ∀ p i, Steady fun k => run k p i)
    (next : Value → Except Fault Parser) (s : Value) (i : Nat) :
    Steady fun k => ParserAlgebra.rounds (run k) next k s i := by
  refine ⟨fun k => rounds_extends (fun p j => (h p j).growing k) next k s i, fun k => ?_⟩
  have hnext : ∀ s, Lockstep Memory.SameCells Eq (Run.ofExcept (next s)) (Run.ofExcept (next s)) :=
    fun s => .ofExcept fun _ _ => rfl
  have hrun : ∀ p q j j', p = q → j = j' →
      Lockstep Memory.SameCells (Reply.Meets Eq Eq) (run k p j) (run k q j') := by
    rintro p _ j _ rfl rfl
    exact (h p j).meets k
  have hstep := Lockstep.rounds hnext hrun k s (rfl : i = i)
  exact hstep.mono fun _ _ hr => hr.eq

end Steady

namespace Yields

variable {y z : Nat → Run α} {m m' : Memory} {o o' : Except Fault α} {c c' : Cells}

theorem of_extends (h : ∀ k, ∃ l, Extends (y k) (z l)) (hy : Yields y m o c) :
    Yields z m o c := by
  obtain ⟨k, ho, hc⟩ := hy
  obtain ⟨l, hl⟩ := h k
  have heq : (z l).exec m = (y k).exec m := hl m (ho ▸ ended_ne_exhausted o)
  exact ⟨l, heq ▸ ho, heq ▸ hc⟩

theorem succ_iff (hy : Growing y) : Yields (fun k => y (k + 1)) m o c ↔ Yields y m o c :=
  ⟨fun ⟨k, h⟩ => ⟨k + 1, h⟩, of_extends fun k => ⟨k, hy k⟩⟩

/-- Every larger bound than one that suffices does. -/
theorem eventually (hy : Growing y) (h : Yields y m o c) :
    ∃ k, ∀ l, k ≤ l → ((y l).exec m).1 = ended o ∧ ((y l).exec m).2.cells = c := by
  obtain ⟨k, ho, hc⟩ := h
  refine ⟨k, fun l hl => ?_⟩
  have heq : (y l).exec m = (y k).exec m := Extends.of_le hy hl m (ho ▸ ended_ne_exhausted o)
  exact ⟨heq ▸ ho, heq ▸ hc⟩

/-- A family that grows yields one thing. -/
theorem unique (hy : Growing y) (h : Yields y m o c) (h' : Yields y m o' c') :
    o = o' ∧ c = c' := by
  obtain ⟨k, hk⟩ := h.eventually hy
  obtain ⟨l, hl⟩ := h'.eventually hy
  obtain ⟨ho, hc⟩ := hk _ (Nat.le_max_left k l)
  obtain ⟨ho', hc'⟩ := hl _ (Nat.le_max_right k l)
  exact ⟨ended_injective (ho.symm.trans ho'), hc.symm.trans hc'⟩

theorem congr (h : ∀ k, y k = z k) : Yields y m o c ↔ Yields z m o c := by
  rw [funext h]

/-- Where the runs of two families end alike from these memories, they yield the same. -/
theorem of_alike (h : ∀ k, ((z k).exec m').2.SameCells ((y k).exec m).2 ∧
    Alike Eq ((z k).exec m').1 ((y k).exec m).1) (hy : Yields y m o c) : Yields z m' o c := by
  obtain ⟨k, ho, hc⟩ := hy
  obtain ⟨hcells, hA⟩ := h k
  exact ⟨k, hA.eq.trans ho, hcells.trans hc⟩

/-- What was logged and counted before makes no difference. -/
theorem of_cells (hy : Steady y) (hm : m.cells = m'.cells) (h : Yields y m o c) :
    Yields y m' o c :=
  h.of_alike fun k => hy.blind k m' m hm.symm

/-! ### Runs in a row -/

variable {g : Nat → α → Run β} {a : α} {w : Except Fault β}

theorem bind_ok (hy : Growing y) (hg : Steady fun k => g k a) (h : Yields y m (.ok a) c)
    (ha : Yields (fun k => g k a) c.memory w c') : Yields (fun k => y k >>= g k) m w c' := by
  obtain ⟨k, hk⟩ := h.eventually hy
  obtain ⟨l, hl⟩ := ha.eventually hg.growing
  obtain ⟨ho, hc⟩ := hk _ (Nat.le_max_left k l)
  -- The larger of the two bounds suffices for both parts.
  refine ⟨max k l, ?_⟩
  rw [exec_bind]
  rcases hx : (y (max k l)).exec m with ⟨x, n⟩
  rw [hx] at ho hc
  dsimp only at ho hc
  subst ho hc
  obtain ⟨hcells, hA⟩ := hg.blind (max k l) n n.cells.memory rfl
  obtain ⟨hw, hlast⟩ := hl _ (Nat.le_max_right k l)
  exact ⟨hA.eq.trans hw, hcells.trans hlast⟩

theorem bind_error {f : Fault} (h : Yields y m (.error f) c) :
    Yields (fun k => y k >>= g k) m (.error f) c := by
  obtain ⟨k, ho, hc⟩ := h
  refine ⟨k, ?_⟩
  rw [exec_bind]
  rcases hx : (y k).exec m with ⟨x, n⟩
  rw [hx] at ho hc
  dsimp only at ho hc
  subst ho hc
  exact ⟨rfl, rfl⟩

theorem bind_cases (hg : ∀ a, Steady fun k => g k a) (h : Yields (fun k => y k >>= g k) m w c') :
    (∃ f, w = .error f ∧ Yields y m (.error f) c') ∨
      ∃ a c, Yields y m (.ok a) c ∧ Yields (fun k => g k a) c.memory w c' := by
  obtain ⟨k, ho, hc⟩ := h
  rw [exec_bind] at ho hc
  rcases hx : (y k).exec m with ⟨x, n⟩
  rw [hx] at ho hc
  cases x with
  | ok a =>
    have hrest : Yields (fun k => g k a) n w c' := ⟨k, ho, hc⟩
    have hfirst : Yields y m (.ok a) n.cells := ⟨k, by rw [hx]; exact ⟨rfl, rfl⟩⟩
    exact .inr ⟨a, n.cells, hfirst, hrest.of_cells (hg a) n.cells.cells_memory.symm⟩
  | error halt =>
    cases w with
    | ok b => cases ho
    | error f =>
      cases ho
      exact .inl ⟨f, rfl, k, by rw [hx]; exact ⟨rfl, hc⟩⟩

theorem ofExcept_iff {e : Except Fault α} :
    Yields (fun _ => Run.ofExcept e) m o c ↔ o = e ∧ c = m.cells := by
  simp only [Yields, exec_ofExcept]
  constructor
  · rintro ⟨_, ho, hc⟩
    exact ⟨ended_injective ho.symm, hc.symm⟩
  · rintro ⟨rfl, rfl⟩
    exact ⟨0, rfl, rfl⟩

theorem pure_iff : Yields (fun _ => Pure.pure a) m o c ↔ o = .ok a ∧ c = m.cells :=
  ofExcept_iff (e := .ok a)

theorem raise_iff {f : Fault} :
    Yields (fun _ => (Run.raise f : Run α)) m o c ↔ o = .error f ∧ c = m.cells :=
  ofExcept_iff (e := .error f)

/-! ### Sequences -/

section

variable {x : Nat → Run Reply} {f : Nat → Value → Nat → Run Reply} {r : Except Fault Reply}

theorem andThen_accept (hx : Growing x) {v : Value} {stop : Nat}
    (hf : Steady fun k => f k v stop) (h : Yields x m (.ok (.accept v stop)) c)
    (hrest : Yields (fun k => f k v stop) c.memory r c') :
    Yields (fun k => (x k).andThen (f k)) m r c' :=
  bind_ok (a := Reply.accept v stop) hx hf h hrest

theorem andThen_reject (hx : Growing x) {why : Reason} {start : Nat}
    (h : Yields x m (.ok (.reject why start)) c) :
    Yields (fun k => (x k).andThen (f k)) m (.ok (.reject why start)) c :=
  bind_ok (a := Reply.reject why start) hx (.pure _) h (pure_iff.2 ⟨rfl, rfl⟩)

theorem andThen_error {e : Fault} (h : Yields x m (.error e) c) :
    Yields (fun k => (x k).andThen (f k)) m (.error e) c :=
  .bind_error h

theorem andThen_cases (hf : ∀ v stop, Steady fun k => f k v stop)
    (h : Yields (fun k => (x k).andThen (f k)) m r c') :
    (∃ e, r = .error e ∧ Yields x m (.error e) c') ∨
      (∃ why start, r = .ok (.reject why start) ∧ Yields x m (.ok (.reject why start)) c') ∨
      ∃ v stop c, Yields x m (.ok (.accept v stop)) c ∧
        Yields (fun k => f k v stop) c.memory r c' := by
  unfold Run.andThen at h
  rcases bind_cases (fun reply => by
    cases reply with
    | accept v stop => exact hf v stop
    | reject why start => exact .pure _) h with herror | ⟨reply, c, hx, hrest⟩
  · exact .inl herror
  · cases reply with
    | accept v stop => exact .inr (.inr ⟨v, stop, c, hx, hrest⟩)
    | reject why start =>
      obtain ⟨rfl, rfl⟩ := pure_iff.1 hrest
      exact .inr (.inl ⟨why, start, rfl, hx⟩)

end

end Yields

end Run

open Run (Yields Steady Lockstep)

/-! ### Running a parser -/

/-- With some bound the run of a parser at an offset has this outcome from the memory, and leaves
these cells. -/
def Evaluates (cx : Context) (p : Parser) (i : Nat) (m : Memory) (o : Except Fault Reply)
    (c : Cells) : Prop :=
  Yields (fun k => interpret cx k p i) m o c

theorem interpret_steady (cx : Context) (p : Parser) (i : Nat) :
    Steady fun k => interpret cx k p i :=
  ⟨fun k => interpret_extends_succ cx k p i,
    fun k => interpret_sameCells cx.rules cx.text cx.trace cx.trace k p i⟩

theorem evaluates_cells {cx : Context} {p : Parser} {i : Nat} {m : Memory}
    {o : Except Fault Reply} {c : Cells} :
    Evaluates cx p i m.cells.memory o c ↔ Evaluates cx p i m o c :=
  ⟨.of_cells (interpret_steady cx p i) m.cells.cells_memory,
    .of_cells (interpret_steady cx p i) m.cells.cells_memory.symm⟩

theorem nodeReply_steady (cx : Context) (p : Parser) (i : Nat) :
    Steady fun k => nodeReply cx k (interpret cx k) p i :=
  ⟨fun k => nodeReply_extends cx k (fun q j => interpret_extends_succ cx k q j) p i,
    fun k => nodeReply_sameCells cx k p i⟩

/-- A run yields what its node yields, traced or not. -/
theorem evaluates_iff {cx : Context} {p : Parser} (hp : p.unknownTag? = none) {i : Nat}
    {m : Memory} {o : Except Fault Reply} {c : Cells} :
    Evaluates cx p i m o c ↔ Yields (fun k => nodeReply cx k (interpret cx k) p i) m o c := by
  have hstep : ∀ k, Lockstep Memory.SameCells Eq (interpret cx (k + 1) p i)
      (nodeReply cx k (interpret cx k) p i) := fun k =>
    .step_left (fun _ _ _ h => h) hp ((nodeReply_steady cx p i).blind k)
  have hsym : ∀ k, ((nodeReply cx k (interpret cx k) p i).exec m).2.SameCells
      ((interpret cx (k + 1) p i).exec m).2 ∧ Alike Eq
      ((nodeReply cx k (interpret cx k) p i).exec m).1 ((interpret cx (k + 1) p i).exec m).1 :=
    fun k => ⟨(hstep k m m rfl).1.symm, (hstep k m m rfl).2.flip.mono fun _ _ h => h.symm⟩
  rw [Evaluates, ← Yields.succ_iff (interpret_steady cx p i).growing]
  exact ⟨.of_alike hsym, .of_alike fun k => hstep k m m rfl⟩

end ParserAlgebra
