import ParserAlgebra.Proofs.Yields

/-!
# Loops are recursions

A loop runs in rounds and keeps no stack. What it yields is what the recursion yields that it stands
for: run the parser of the seed, and where its value asks for another round, recur from the new seed
at the offset that was reached. So it also yields what a bind yields whose function gives the loop
from the next seed for one kind of value and the finished value for the other.
-/

namespace ParserAlgebra

open Run (Yields Steady ended Extends)

/-- The recursion that a loop stands for: from a seed, an offset and cells to an outcome and
cells. -/
inductive Recurs (cx : Context) (next : Value → Except Fault Parser) :
    Value → Nat → Cells → Except Fault Reply → Cells → Prop
  | unstarted {s : Value} {i : Nat} {c : Cells} {f : Fault} (hp : next s = .error f) :
      Recurs cx next s i c (.error f) c
  | raised {s : Value} {i : Nat} {c c' : Cells} {p : Parser} {f : Fault} (hp : next s = .ok p)
      (h : Evaluates cx p i c.memory (.error f) c') : Recurs cx next s i c (.error f) c'
  | rejected {s : Value} {i start : Nat} {c c' : Cells} {p : Parser} {why : Reason}
      (hp : next s = .ok p) (h : Evaluates cx p i c.memory (.ok (.reject why start)) c') :
      Recurs cx next s i c (.ok (.reject why start)) c'
  | again {s s' : Value} {i stop : Nat} {c c' c'' : Cells} {p : Parser} {o : Except Fault Reply}
      (hp : next s = .ok p) (h : Evaluates cx p i c.memory (.ok (.accept (.left s') stop)) c')
      (hrest : Recurs cx next s' stop c' o c'') : Recurs cx next s i c o c''
  | finished {s v : Value} {i stop : Nat} {c c' : Cells} {p : Parser} (hp : next s = .ok p)
      (h : Evaluates cx p i c.memory (.ok (.accept (.right v) stop)) c') :
      Recurs cx next s i c (.ok (.accept v stop)) c'
  | stray {s v : Value} {i stop : Nat} {c c' : Cells} {p : Parser} (hp : next s = .ok p)
      (h : Evaluates cx p i c.memory (.ok (.accept v stop)) c') (hl : ∀ s', v ≠ .left s')
      (hr : ∀ u, v ≠ .right u) : Recurs cx next s i c (.error (.notAStep v.shown)) c'

section

variable {cx : Context} {next : Value → Except Fault Parser} {s : Value} {i : Nat}

/-! ### The rounds of a loop -/

theorem Recurs.of_rounds {k n : Nat} {m : Memory} {o : Except Fault Reply}
    (h : ((rounds (interpret cx k) next n s i).exec m).1 = ended o) :
    Recurs cx next s i m.cells o ((rounds (interpret cx k) next n s i).exec m).2.cells := by
  induction n generalizing s i m with
  | zero => exact absurd h.symm (Run.ended_ne_exhausted o)
  | succ n ih =>
    rw [rounds, Run.exec_bind] at h ⊢
    cases hp : next s with
    | error f =>
      rw [hp] at h
      cases Run.ended_injective (o := .error f) h
      exact .unstarted hp
    | ok p =>
      rw [hp] at h
      simp only [Run.exec_ofExcept_ok, Run.exec_bind] at h ⊢
      rcases hx : (interpret cx k p i).exec m with ⟨x, n'⟩
      have hround : ∀ o', x = ended o' → Evaluates cx p i m.cells.memory o' n'.cells := by
        intro o' ho
        have hy : Evaluates cx p i m o' n'.cells := ⟨k, by rw [hx]; exact ⟨ho, rfl⟩⟩
        exact evaluates_cells.2 hy
      rw [hx] at h
      cases x with
      | error halt =>
        cases o with
        | ok reply => cases h
        | error f =>
          cases h
          exact .raised hp (hround (.error f) rfl)
      | ok reply =>
        have hreply := hround (.ok reply) rfl
        cases reply with
        | reject why start =>
          have ho : ended (.ok (.reject why start)) = ended o := h
          cases Run.ended_injective ho
          exact .rejected hp hreply
        | accept v stop =>
          cases v with
          | left s' => exact .again hp hreply (ih h)
          | right u =>
            have ho : ended (.ok (.accept u stop)) = ended o := h
            cases Run.ended_injective ho
            exact .finished hp hreply
          | _ =>
            have ho : ended (.error (.notAStep _)) = ended o := h
            cases Run.ended_injective ho
            exact .stray hp hreply nofun nofun

/-- What follows a round: another one, the result, or a fault. -/
def afterRound (cx : Context) (next : Value → Except Fault Parser) (k : Nat) : Reply → Run Reply
  | .reject why start => pure (.reject why start)
  | .accept (.left s) stop => rounds (interpret cx (k + 1)) next k s stop
  | .accept (.right v) stop => pure (.accept v stop)
  | .accept v _ => Run.raise (.notAStep v.shown)

theorem rounds_succ (k : Nat) : rounds (interpret cx (k + 1)) next (k + 1) s i =
    Run.ofExcept (next s) >>= fun p => interpret cx (k + 1) p i >>= afterRound cx next k := by
  rw [rounds]
  congr 1

theorem afterRound_steady (reply : Reply) : Steady fun k => afterRound cx next k reply := by
  cases reply with
  | reject why start => exact .pure _
  | accept v stop =>
    cases v with
    | left s' =>
      exact .rounds (fun p j => (interpret_steady cx p j).succ) next s' stop
    | right u => exact .pure _
    | _ => exact .raise _

theorem rounds_steady : Steady fun k => rounds (interpret cx k) next k s i :=
  .rounds (fun p j => interpret_steady cx p j) next s i

/-- A round that yields a reply, and what follows it. -/
theorem rounds_yields {p : Parser} {c c' c'' : Cells} {reply : Reply} {o : Except Fault Reply}
    (hp : next s = .ok p) (h : Evaluates cx p i c.memory (.ok reply) c')
    (hafter : Yields (fun k => afterRound cx next k reply) c'.memory o c'') :
    Yields (fun k => rounds (interpret cx k) next k s i) c.memory o c'' := by
  rw [← Yields.succ_iff rounds_steady.growing, Yields.congr fun k => rounds_succ k]
  have hround : Steady fun k => interpret cx (k + 1) p i >>= afterRound cx next k :=
    .bind (interpret_steady cx p i).succ afterRound_steady
  have hrun := (Yields.succ_iff (interpret_steady cx p i).growing).2 h
  refine .bind_ok (.const _) hround (Yields.ofExcept_iff.2 ⟨hp.symm, rfl⟩) ?_
  exact .bind_ok (interpret_steady cx p i).succ.growing (afterRound_steady reply) hrun hafter

theorem Recurs.yields {c c' : Cells} {o : Except Fault Reply} (h : Recurs cx next s i c o c') :
    Yields (fun k => rounds (interpret cx k) next k s i) c.memory o c' := by
  induction h with
  | unstarted hp =>
    rw [← Yields.succ_iff rounds_steady.growing, Yields.congr fun k => rounds_succ k]
    exact .bind_error (Yields.ofExcept_iff.2 ⟨hp.symm, rfl⟩)
  | @raised s i c c' p f hp h =>
    rw [← Yields.succ_iff rounds_steady.growing, Yields.congr fun k => rounds_succ k]
    have hround : Steady fun k => interpret cx (k + 1) p i >>= afterRound cx next k :=
      .bind (interpret_steady cx p i).succ afterRound_steady
    have hrun := (Yields.succ_iff (interpret_steady cx p i).growing).2 h
    exact .bind_ok (.const _) hround (Yields.ofExcept_iff.2 ⟨hp.symm, rfl⟩) (.bind_error hrun)
  | rejected hp h => exact rounds_yields hp h (Yields.pure_iff.2 ⟨rfl, rfl⟩)
  | @again s s' i stop c c' c'' p o hp h _ ih =>
    refine rounds_yields hp h (ih.of_extends fun k => ⟨k + 1, ?_⟩)
    have hrun : ∀ q j, Extends (interpret cx k q j) (interpret cx (k + 2) q j) := fun q j =>
      interpret_extends cx q j (Nat.le_add_right k 2)
    exact rounds_extends hrun next k s' stop
  | finished hp h => exact rounds_yields hp h (Yields.pure_iff.2 ⟨rfl, rfl⟩)
  | @stray s v i stop c c' p hp h hl hr =>
    refine rounds_yields hp h ?_
    cases v with
    | left s' => exact absurd rfl (hl s')
    | right u => exact absurd rfl (hr u)
    | _ => exact Yields.raise_iff.2 ⟨rfl, rfl⟩

theorem evaluates_loop {id : Nat} {label : Label} {m : Memory} {o : Except Fault Reply}
    {c : Cells} :
    Evaluates cx (.loop id label next s) i m o c ↔ Recurs cx next s i m.cells o c := by
  rw [evaluates_iff rfl]
  constructor
  · rintro ⟨k, ho, rfl⟩
    exact .of_rounds ho
  · intro h
    exact h.yields.of_cells rounds_steady m.cells.cells_memory

/-! ### A bind that recurs -/

/-- A function that goes on as a loop does: with the loop from the next seed, or with the value. -/
structure Continues (next k : Value → Except Fault Parser) : Prop where
  left : ∀ s, ∃ id label, k (.left s) = .ok (.loop id label next s)
  right : ∀ v, ∃ id, k (.right v) = .ok (.constant id v)
  stray : ∀ v, (∀ s, v ≠ .left s) → (∀ u, v ≠ .right u) → k v = .error (.notAStep v.shown)

theorem evaluates_constant {id : Nat} {v : Value} {m : Memory} {o : Except Fault Reply}
    {c : Cells} :
    Evaluates cx (.constant id v) i m o c ↔ o = .ok (.accept v i) ∧ c = m.cells := by
  rw [evaluates_iff rfl]
  exact Yields.pure_iff

/-- What a bind does with the value of its source. -/
theorem bound_steady (k : Value → Except Fault Parser) (v : Value) (stop : Nat) :
    Steady fun n => Run.ofExcept (k v) >>= fun q => interpret cx n q stop :=
  .bind (.ofExcept _) fun q => interpret_steady cx q stop

theorem bound_yields {k : Value → Except Fault Parser} {v : Value} {stop : Nat} {q : Parser}
    (hq : k v = .ok q) {m : Memory} {o : Except Fault Reply} {c : Cells} :
    Yields (fun n => Run.ofExcept (k v) >>= fun q => interpret cx n q stop) m o c ↔
      Evaluates cx q stop m o c := by
  rw [hq]
  exact Yields.congr fun n => rfl

variable {k : Value → Except Fault Parser} {p : Parser} {id : Nat} {label : Label} {m : Memory}
  {o : Except Fault Reply} {c : Cells}

theorem Continues.evaluates (hk : Continues next k) (hp : next s = .ok p)
    (h : Recurs cx next s i m.cells o c) : Evaluates cx (.bind id p label k) i m o c := by
  rw [evaluates_iff rfl]
  have hsource : ∀ {q o' c'}, next s = .ok q → Evaluates cx q i m.cells.memory o' c' →
      Yields (fun n => interpret cx n p i) m o' c' := fun hq h => by
    rw [hp] at hq
    cases hq
    exact evaluates_cells.1 h
  have hgrow : Run.Growing fun n => interpret cx n p i := (interpret_steady cx p i).growing
  cases h with
  | unstarted hq =>
    rw [hp] at hq
    cases hq
  | raised hq h => exact .andThen_error (hsource hq h)
  | rejected hq h => exact .andThen_reject hgrow (hsource hq h)
  | @again _ s' _ stop _ _ _ _ _ hq h hrest =>
    obtain ⟨id', label', hleft⟩ := hk.left s'
    refine .andThen_accept hgrow (bound_steady k _ stop) (hsource hq h) ?_
    exact (bound_yields hleft).2 (evaluates_loop.2 hrest)
  | @finished _ u _ stop _ _ _ hq h =>
    obtain ⟨id', hright⟩ := hk.right u
    refine .andThen_accept hgrow (bound_steady k _ stop) (hsource hq h) ?_
    exact (bound_yields hright).2 (evaluates_constant.2 ⟨rfl, rfl⟩)
  | @stray _ v _ stop _ _ _ hq h hl hr =>
    refine .andThen_accept hgrow (bound_steady k _ stop) (hsource hq h) ?_
    rw [hk.stray v hl hr]
    exact Yields.raise_iff.2 ⟨rfl, rfl⟩

end

end ParserAlgebra
