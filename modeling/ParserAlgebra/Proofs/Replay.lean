import ParserAlgebra.Proofs.Onward
import ParserAlgebra.Proofs.Yields

/-!
# Runs again

A cell that was filled keeps its parser, and whatever a run asks for once is kept. So a run that
ended with a value ends with it again, from every memory that keeps what the first run left, and
then it changes no cell.
-/

namespace ParserAlgebra

open Run (Moves)

/-- What the cells of one memory hold, those of the other hold. -/
def Memory.KeptIn (m m' : Memory) : Prop :=
  ∀ cell p, m.parserIn? cell = some p → m'.parserIn? cell = some p

theorem Memory.KeptIn.of_sameCells {m n n' : Memory} (h : m.KeptIn n) (hn : n'.SameCells n) :
    m.KeptIn n' :=
  fun cell p hp => (hn.parserIn?_eq cell).trans (h cell p hp)

theorem Memory.keptIn_onward (traced : Bool) : Memory.Onward true traced Memory.KeptIn where
  refl _ _ _ h := h
  trans h h' cell p hp := h' cell p (h cell p hp)
  build _ _ _ _ h := h
  countCall _ _ _ _ h := h
  fill {m m' cell p} _ hc h := by
    intro other q hq
    have hne : other ≠ cell := by
      rintro rfl
      rw [hc] at hq
      cases hq
    rw [parserIn?_fill_of_ne m' p hne]
    exact h other q hq
  write _ _ _ _ _ h := h

namespace Run

variable {α β : Type}

/-- The run keeps what cells held, and where it ended with a value, it does so again. -/
structure Replays (x : Run α) : Prop where
  keeps : Moves Memory.KeptIn x
  again : ∀ {m a}, (x.exec m).1 = .ok a → ∀ {n}, (x.exec m).2.KeptIn n →
    (x.exec n).1 = .ok a ∧ (x.exec n).2.SameCells n

namespace Replays

theorem pure (a : α) : Replays (Pure.pure a : Run α) :=
  ⟨.pure (Memory.keptIn_onward true) a, fun h _ _ => ⟨h, rfl⟩⟩

theorem raise (f : Fault) : Replays (Run.raise f : Run α) :=
  ⟨.raise (Memory.keptIn_onward true) f, nofun⟩

theorem exhaust : Replays (Run.exhaust : Run α) :=
  ⟨.exhaust (Memory.keptIn_onward true), nofun⟩

theorem countCall (name : String) : Replays (Run.countCall name) :=
  ⟨.countCall (Memory.keptIn_onward true) name, fun h _ _ => ⟨h, rfl⟩⟩

theorem note (cx : Context) (entry : LogEntry) :
    Replays (if cx.trace then Run.write entry else Pure.pure ()) := by
  refine ⟨noted_moves (Memory.keptIn_onward cx.trace) entry, fun h n _ => ?_⟩
  split <;> exact ⟨rfl, rfl⟩

theorem bind {x : Run α} {f : α → Run β} (hx : Replays x) (hf : ∀ a, Replays (f a)) :
    Replays (x >>= f) := by
  refine ⟨.bind (Memory.keptIn_onward true) hx.keeps fun a => (hf a).keeps, ?_⟩
  intro m b hb n hn
  rw [exec_bind] at hb hn ⊢
  rcases hxm : x.exec m with ⟨halt | a, m'⟩
  · rw [hxm] at hb
    cases hb
  · rw [hxm] at hb hn
    -- What the first part left is kept by the second, so it is still there the next time.
    have hkept : m'.KeptIn n := fun cell p hp => hn cell p ((hf a).keeps m' cell p hp)
    obtain ⟨hax, hcells⟩ := hx.again (by rw [hxm]) (by rw [hxm]; exact hkept)
    rcases hxn : x.exec n with ⟨w, n'⟩
    rw [hxn] at hax hcells
    cases hax
    obtain ⟨hbf, hlast⟩ := (hf a).again hb (hn.of_sameCells hcells)
    exact ⟨hbf, hlast.trans hcells⟩

/-- What is made for a cell need not be made the same way twice. -/
theorem once {cell : Cell} {make : Run Parser} (h : Moves Memory.KeptIn (Run.once cell make)) :
    Replays (Run.once cell make) := by
  refine ⟨h, fun {m p} hp n hn => ?_⟩
  have hfilled : ((Run.once cell make).exec m).2.parserIn? cell = some p := by
    cases hc : m.parserIn? cell with
    | some q =>
      rw [exec_once_of_some make hc] at hp ⊢
      cases hp
      exact hc
    | none =>
      rcases hx : make.exec m with ⟨halt | q, m'⟩
      · simp only [Run.once, exec_bind, exec_parserIn?, hc, hx] at hp
        cases hp
      · rw [exec_once_of_none hc hx] at hp ⊢
        cases hp
        exact Memory.parserIn?_fill m' cell p
  rw [exec_once_of_some make (hn cell p hfilled)]
  exact ⟨rfl, rfl⟩

end Replays

end Run

open Run (Replays)

theorem call_replays (rules : Rules) (n : Nat) (t : Thunk) : Replays (t.call rules n) := by
  have hkept := Memory.keptIn_onward true
  cases n with
  | zero => exact .exhaust
  | succ n =>
    cases t with
    | const p => exact .pure p
    | rule name =>
      refine .bind (.countCall name) fun _ => ?_
      split
      · exact .pure _
      · exact .raise _
    | optimized cell source =>
      exact .once (.once hkept nofun (.bind hkept (call_moves hkept rules n source)
        (optimizeWith_moves hkept (call_moves hkept rules n) n)))

theorem Script.exec_replays {α : Type} {rules : Rules} {n : Nat} {sub : Runner}
    (hsub : ∀ p i, Replays (sub p i)) (s : Script α) : Replays (s.exec rules n sub) := by
  induction s with
  | done a => exact .pure a
  | returned rest ih => exact ih
  | raised f | broken f => exact .raise f
  | run p i next ih => exact .bind (hsub p i) ih
  | call t next ih => exact .bind (call_replays rules n t) ih
  | force id t next ih =>
    exact .bind (.once (force_moves (Memory.keptIn_onward true) rules n id t)) ih
  | settle v again last ihagain ihlast =>
    cases v with
    | left s => exact ihagain s
    | right w => exact ihlast w
    | _ => exact .raise _
  | exhaust => exact .exhaust

theorem interpret_replays (cx : Context) (n : Nat) (p : Parser) (i : Nat) :
    Replays (interpret cx n p i) := by
  induction n generalizing p i with
  | zero => exact .exhaust
  | succ n ih =>
    rw [interpret, step_eq, nodeReply_eq]
    split
    · exact .raise _
    · refine .bind (.note cx _) fun _ => .bind (Script.exec_replays ih _) fun reply => ?_
      cases reply with
      | accept v stop => exact .pure _
      | reject why start => exact .bind (.note cx _) fun _ => .pure _

/-- What a run yielded it yields again, from all cells that keep what it left, and it leaves these
as they are. -/
theorem Evaluates.again {cx : Context} {p : Parser} {i : Nat} {m : Memory} {r : Reply}
    {c d : Cells} (h : Evaluates cx p i m (.ok r) c) (hd : c.memory.KeptIn d.memory) :
    Evaluates cx p i d.memory (.ok r) d := by
  obtain ⟨k, ho, rfl⟩ := h
  obtain ⟨hagain, hcells⟩ := (interpret_replays cx k p i).again ho hd
  exact ⟨k, hagain, hcells⟩

theorem Evaluates.keeps {cx : Context} {p : Parser} {i : Nat} {m : Memory}
    {o : Except Fault Reply} {c : Cells} (h : Evaluates cx p i m o c) : m.KeptIn c.memory := by
  obtain ⟨k, -, rfl⟩ := h
  exact (interpret_replays cx k p i).keeps m

end ParserAlgebra
