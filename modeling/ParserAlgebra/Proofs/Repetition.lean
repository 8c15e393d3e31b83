import ParserAlgebra.Proofs.Series

/-!
# Three ways of asking for at least `n` matches

A collector runs one loop and checks the count at its end; a repetition behind `n` copies of its
source joins values from the right; a bounded repetition counts its rounds. For a source that
consumes something wherever it matches, all three read the same series of matches and do the same
with it.
-/

namespace ParserAlgebra

open Run (Yields Steady Growing)

/-- A value alone in a list. -/
def boxed (v : Value) : Value := .list [v]

/-- The function puts one list behind the other. -/
def Combiner.Concatenates (c : Combiner) : Prop :=
  ∀ us vs, c.apply (.list us) (.list vs) = .ok (.list (us ++ vs))

/-! ### Gathering the values of a series -/

/-- What a repetition that asks for `n` matches makes of a series. -/
inductive Gathered (n : Nat) (vs : List Value) (last : Nat) :
    Option Fault → Except Fault Reply → Prop
  | raised {f : Fault} : Gathered n vs last (some f) (.error f)
  | enough (h : n ≤ vs.length) : Gathered n vs last none (.ok (.accept (.list vs) last))
  | short {why : Reason} {start : Nat} (h : vs.length < n) :
      Gathered n vs last none (.ok (.reject why start))

/-- The parser `q` goes through the series of `p` and gathers the values, `n` at least. -/
structure Gathers (cx : Context) (c₀ : Cells) (p : Parser) (n : Nat) (q : Parser) : Prop where
  series : ∀ {i : Nat} {c c' : Cells} {o : Except Fault Reply}, p.MayLeave cx c₀ c →
    i ≤ cx.text.size → Evaluates cx q i c.memory o c' →
    ∃ vs last e, Series cx p i c vs last e c' ∧ Gathered n vs last e o
  gathered : ∀ {i last : Nat} {c c' : Cells} {vs : List Value} {e : Option Fault},
    p.MayLeave cx c₀ c → i ≤ cx.text.size → Series cx p i c vs last e c' →
    ∃ o, Gathered n vs last e o ∧ Evaluates cx q i c.memory o c'

section

variable {cx : Context} {p q r : Parser} {c₀ : Cells} {n : Nat}

theorem joined_steady (concat : Combiner) (v w : Value) (last : Nat) : Steady fun _ =>
    Run.ofExcept (concat.apply v w) >>= fun u => pure (Reply.accept u last) :=
  .bind (.ofExcept _) fun _ => .pure _

theorem behind_steady (cx : Context) (r : Parser) (concat : Combiner) (v : Value) (stop : Nat) :
    Steady fun k => (interpret cx k r stop).andThen fun w last =>
      Run.ofExcept (concat.apply v w) >>= fun u => pure (.accept u last) :=
  .andThen (interpret_steady cx r stop) (joined_steady concat v)

theorem Gathers.series_both (hp : p.Advances cx c₀) (hq : Echoes cx boxed p q) {concat : Combiner}
    (hconcat : concat.Concatenates) (h : Gathers cx c₀ p n r) {id i : Nat} {c c' : Cells}
    {o : Except Fault Reply} (hc : p.MayLeave cx c₀ c) (hi : i ≤ cx.text.size)
    (hrun : Evaluates cx (.both id q r concat) i c.memory o c') :
    ∃ vs last e, Series cx p i c vs last e c' ∧ Gathered (n + 1) vs last e o := by
  rw [evaluates_iff rfl] at hrun
  rcases Yields.andThen_cases (behind_steady cx r concat) hrun with
    ⟨e, rfl, hx⟩ | ⟨why, start, rfl, hx⟩ | ⟨u, stop, c₁, hx, htail⟩
  · exact ⟨[], i, some e, .raised (hq.error.1 hx), .raised⟩
  · exact ⟨[], i, none, .rejected (hq.reject.1 hx), .short (Nat.zero_lt_succ n)⟩
  obtain ⟨v, rfl, hv⟩ := hq.accept.1 hx
  have hstop := (hp c c₁ i v stop hc hi hv).2
  rcases Yields.andThen_cases (joined_steady concat (boxed v)) htail with
    ⟨e, rfl, hy⟩ | ⟨why, start, rfl, hy⟩ | ⟨w, last, c₂, hy, hlast⟩
  all_goals obtain ⟨vs, last', e', hs, hg⟩ := h.series (hc.run hi hv) hstop hy
  · cases hg with
    | raised => exact ⟨v :: vs, last', some e, .matched hv hs, .raised⟩
  · cases hg with
    | short hlt => exact ⟨v :: vs, last', none, .matched hv hs, .short (Nat.succ_lt_succ hlt)⟩
  · cases hg with
    | enough hle =>
      rw [boxed, hconcat] at hlast
      obtain ⟨rfl, rfl⟩ := Yields.pure_iff.1 hlast
      exact ⟨v :: vs, last, none, .matched hv hs, .enough (Nat.succ_le_succ hle)⟩

theorem Gathers.gathered_both (hp : p.Advances cx c₀) (hq : Echoes cx boxed p q)
    {concat : Combiner} (hconcat : concat.Concatenates) (h : Gathers cx c₀ p n r) (id : Nat)
    {i last : Nat} {c c' : Cells} {vs : List Value} {e : Option Fault} (hc : p.MayLeave cx c₀ c)
    (hi : i ≤ cx.text.size) (hs : Series cx p i c vs last e c') :
    ∃ o, Gathered (n + 1) vs last e o ∧ Evaluates cx (.both id q r concat) i c.memory o c' := by
  have hgrow : ∀ s j, Growing fun k => interpret cx k s j := fun s j =>
    (interpret_steady cx s j).growing
  cases hs with
  | @rejected _ start _ _ why hx =>
    refine ⟨.ok (.reject why start), .short (Nat.zero_lt_succ n), (evaluates_iff rfl).2 ?_⟩
    exact .andThen_reject (hgrow q i) (hq.reject.2 hx)
  | raised hx => exact ⟨_, .raised, (evaluates_iff rfl).2 (.andThen_error (hq.error.2 hx))⟩
  | @matched _ stop _ _ c₁ _ v vs _ hx hs =>
    obtain ⟨o, hg, hy⟩ := h.gathered (hc.run hi hx) (hp c c₁ i v stop hc hi hx).2 hs
    have behind : ∀ {w c'}, Yields (fun k => (interpret cx k r stop).andThen fun w last =>
        Run.ofExcept (concat.apply (boxed v) w) >>= fun u => pure (.accept u last))
        c₁.memory w c' → Evaluates cx (.both id q r concat) i c.memory w c' := fun hrest =>
      (evaluates_iff rfl).2 (.andThen_accept (hgrow q i) (behind_steady cx r concat _ stop)
        (hq.accept.2 ⟨v, rfl, hx⟩) hrest)
    cases hg with
    | raised => exact ⟨_, .raised, behind (.andThen_error hy)⟩
    | @short why start hlt =>
      exact ⟨.ok (.reject why start), .short (Nat.succ_lt_succ hlt),
        behind (.andThen_reject (hgrow r stop) hy)⟩
    | enough hle =>
      refine ⟨_, .enough (Nat.succ_le_succ hle),
        behind (.andThen_accept (hgrow r stop) (joined_steady concat _ _ last) hy ?_)⟩
      rw [boxed, hconcat]
      exact Yields.pure_iff.2 ⟨rfl, rfl⟩

theorem Gathers.both (hp : p.Advances cx c₀) (hq : Echoes cx boxed p q) {concat : Combiner}
    (hconcat : concat.Concatenates) (h : Gathers cx c₀ p n r) (id : Nat) :
    Gathers cx c₀ p (n + 1) (.both id q r concat) :=
  ⟨h.series_both hp hq hconcat, h.gathered_both hp hq hconcat id⟩

/-! ### The three parsers -/

theorem Gathers.repeatBefore (hp : p.Advances cx c₀) (hq : Echoes cx boxed p q)
    {concat : Combiner} (hconcat : concat.Concatenates) (h : Gathers cx c₀ p n r)
    (more next : Nat) :
    Gathers cx c₀ p (n + more) (Build.repeatBefore q concat more r next).1 := by
  induction more generalizing n r next with
  | zero => exact h
  | succ more ih =>
    have hstep := ih (h.both hp hq hconcat next) (next + 1)
    rwa [Nat.add_assoc, Nat.add_comm 1] at hstep

section

variable {i : Nat} {m : Memory} {c : Cells}

theorem Gathers.accept (hq : Gathers cx c₀ p n q) (hr : Gathers cx c₀ p n r)
    (hm : p.MayLeave cx c₀ m.cells) (hi : i ≤ cx.text.size) {v : Value} {stop : Nat}
    (h : Evaluates cx q i m (.ok (.accept v stop)) c) :
    Evaluates cx r i m (.ok (.accept v stop)) c := by
  obtain ⟨vs, last, e, hs, hg⟩ := hq.series hm hi (evaluates_cells.2 h)
  cases hg with
  | enough hle =>
    obtain ⟨o, hg, hrun⟩ := hr.gathered hm hi hs
    cases hg with
    | enough => exact evaluates_cells.1 hrun
    | short hlt => exact absurd hle (Nat.not_le_of_lt hlt)

theorem Gathers.reject (hq : Gathers cx c₀ p n q) (hr : Gathers cx c₀ p n r)
    (hm : p.MayLeave cx c₀ m.cells) (hi : i ≤ cx.text.size) :
    (∃ why start, Evaluates cx q i m (.ok (.reject why start)) c) →
      ∃ why start, Evaluates cx r i m (.ok (.reject why start)) c := by
  rintro ⟨why, start, h⟩
  obtain ⟨vs, last, e, hs, hg⟩ := hq.series hm hi (evaluates_cells.2 h)
  cases hg with
  | short hlt =>
    obtain ⟨o, hg, hrun⟩ := hr.gathered hm hi hs
    cases hg with
    | enough hle => exact absurd hle (Nat.not_le_of_lt hlt)
    | short => exact ⟨_, _, evaluates_cells.1 hrun⟩

theorem Gathers.raise (hq : Gathers cx c₀ p n q) (hr : Gathers cx c₀ p n r)
    (hm : p.MayLeave cx c₀ m.cells) (hi : i ≤ cx.text.size) {f : Fault}
    (h : Evaluates cx q i m (.error f) c) : Evaluates cx r i m (.error f) c := by
  obtain ⟨vs, last, e, hs, hg⟩ := hq.series hm hi (evaluates_cells.2 h)
  cases hg
  obtain ⟨o, hg, hrun⟩ := hr.gathered hm hi hs
  cases hg
  exact evaluates_cells.1 hrun

end

end

end ParserAlgebra
