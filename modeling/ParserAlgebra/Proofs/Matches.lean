import ParserAlgebra.Proofs.Series

/-!
# Matches up to a stop

A greedy repetition goes through the matches of its source that consume something and stops at the
first attempt that rejects or consumes nothing; a bounded repetition goes through all matches and
stops at a rejection or when it has seen enough; the copies in front of a repetition match a fixed
number of times. Each of these rows of matches is determined by where it begins, and there is one
if every attempt gets a reply.
-/

namespace ParserAlgebra

open ParserAlgebra.Parser (Kinded)

/-! ### Where matches stop -/

/-- The offset behind matches that begin at `i`, each a value with the offset where it stopped. -/
def lastStop (i : Nat) (ms : List (Value × Nat)) : Nat := ms.foldl (fun _ m => m.2) i

/-- The offsets where the matches begin, and the one behind them. -/
def starts (i : Nat) (ms : List (Value × Nat)) : List Nat := i :: ms.map Prod.snd

/-- The values of the matches. -/
def valuesOf (ms : List (Value × Nat)) : List Value := ms.map Prod.fst

@[simp] theorem valuesOf_cons (m : Value × Nat) (ms : List (Value × Nat)) :
    valuesOf (m :: ms) = m.1 :: valuesOf ms := rfl

/-- A reply after which a greedy repetition stops: a rejection, or a match that consumed nothing. -/
inductive Reply.Idle (i : Nat) : Reply → Prop
  | reject (why : Reason) (start : Nat) : Idle i (.reject why start)
  | accept (v : Value) : Idle i (.accept v i)

/-! ### Rows of matches -/

section

variable (cx : Context) (p : Parser)

/-- Matches one after the other from an offset and cells, and the cells that they leave. -/
inductive Matches : Nat → Cells → List (Value × Nat) → Cells → Prop
  | nil {i : Nat} {c : Cells} : Matches i c [] c
  | cons {i stop : Nat} {c c' c'' : Cells} {v : Value} {ms : List (Value × Nat)}
      (h : Evaluates cx p i c.memory (.ok (.accept v stop)) c') (hrest : Matches stop c' ms c'') :
      Matches i c ((v, stop) :: ms) c''

/-- The matches that each consume something, up to the first attempt that rejects or consumes
nothing, and the cells that this attempt leaves. -/
inductive Strides : Nat → Cells → List (Value × Nat) → Cells → Prop
  | idle {i : Nat} {c c' : Cells} {r : Reply} (h : Evaluates cx p i c.memory (.ok r) c')
      (hr : r.Idle i) : Strides i c [] c'
  | stride {i stop : Nat} {c c' c'' : Cells} {v : Value} {ms : List (Value × Nat)}
      (h : Evaluates cx p i c.memory (.ok (.accept v stop)) c') (hlt : i < stop)
      (hrest : Strides stop c' ms c'') : Strides i c ((v, stop) :: ms) c''

/-- The matches up to the first rejection, those that consume nothing too, but no more than a given
number of them. -/
inductive MatchesUpTo : Nat → Nat → Cells → List (Value × Nat) → Cells → Prop
  | full {i : Nat} {c : Cells} : MatchesUpTo 0 i c [] c
  | rejected {limit i start : Nat} {c c' : Cells} {why : Reason}
      (h : Evaluates cx p i c.memory (.ok (.reject why start)) c') :
      MatchesUpTo (limit + 1) i c [] c'
  | matched {limit i stop : Nat} {c c' c'' : Cells} {v : Value} {ms : List (Value × Nat)}
      (h : Evaluates cx p i c.memory (.ok (.accept v stop)) c')
      (hrest : MatchesUpTo limit stop c' ms c'') : MatchesUpTo (limit + 1) i c ((v, stop) :: ms) c''

/-- Every run of the parser on the text ends with a reply. -/
def Parser.Replies (c : Cells) : Prop :=
  ∀ c' i, p.MayLeave cx c c' → i ≤ cx.text.size →
    ∃ r c'', Evaluates cx p i c'.memory (.ok r) c''

end

section

variable {cx : Context} {p : Parser} {i limit : Nat} {c c' c'' c₀ : Cells} {m : Memory}
  {ms ns : List (Value × Nat)}

/-- What a run yields is determined. -/
theorem Evaluates.unique {o o' : Except Fault Reply} (h : Evaluates cx p i m o c)
    (h' : Evaluates cx p i m o' c') : o = o' ∧ c = c' :=
  Run.Yields.unique (interpret_steady cx p i).growing h h'

/-- A reply lies inside the text, and the cells hold what they may hold. -/
theorem Evaluates.within {r : Reply} (h : Evaluates cx p i c.memory (.ok r) c')
    (hp : p.Kinded cx.rules) (hc : c.memory.Holds (Kinded cx.rules)) (hi : i ≤ cx.text.size) :
    r.Within i cx.text.size ∧ c'.memory.Holds (Kinded cx.rules) := by
  obtain ⟨k, ho, rfl⟩ := h
  obtain ⟨hholds, hreply⟩ := interpret_within cx k hp hi c.memory hc
  exact ⟨hreply r ho, hholds⟩

theorem Strides.unique (h : Strides cx p i c ms c') (h' : Strides cx p i c ns c'') :
    ms = ns ∧ c' = c'' := by
  induction h generalizing ns with
  | idle h hr =>
    cases h' with
    | idle h' _ => exact ⟨rfl, (h.unique h').2⟩
    | stride h' hlt _ =>
      cases (h.unique h').1
      cases hr
      exact absurd hlt (Nat.lt_irrefl _)
  | stride h hlt _ ih =>
    cases h' with
    | idle h' hr =>
      cases (h.unique h').1
      cases hr
      exact absurd hlt (Nat.lt_irrefl _)
    | stride h' _ hrest =>
      obtain ⟨heq, rfl⟩ := h.unique h'
      cases heq
      obtain ⟨rfl, rfl⟩ := ih hrest
      exact ⟨rfl, rfl⟩

theorem MatchesUpTo.unique (h : MatchesUpTo cx p limit i c ms c')
    (h' : MatchesUpTo cx p limit i c ns c'') : ms = ns ∧ c' = c'' := by
  induction h generalizing ns with
  | full =>
    cases h'
    exact ⟨rfl, rfl⟩
  | rejected h =>
    cases h' with
    | rejected h' => exact ⟨rfl, (h.unique h').2⟩
    | matched h' _ => cases (h.unique h').1
  | matched h _ ih =>
    cases h' with
    | rejected h' => cases (h.unique h').1
    | matched h' hrest =>
      obtain ⟨heq, rfl⟩ := h.unique h'
      cases heq
      obtain ⟨rfl, rfl⟩ := ih hrest
      exact ⟨rfl, rfl⟩

theorem MatchesUpTo.length_le (h : MatchesUpTo cx p limit i c ms c') : ms.length ≤ limit := by
  induction h with
  | full => exact Nat.le_refl _
  | rejected => exact Nat.zero_le _
  | matched _ _ ih => exact Nat.succ_le_succ ih

/-- Each stride consumes a character at least, so there are no more than the text has left. -/
theorem Strides.length_le (h : Strides cx p i c ms c') (hp : p.Kinded cx.rules)
    (hc : c.memory.Holds (Kinded cx.rules)) (hi : i ≤ cx.text.size) :
    ms.length ≤ cx.text.size - i := by
  induction h with
  | idle => exact Nat.zero_le _
  | stride h hlt _ ih =>
    obtain ⟨⟨-, hle⟩, hholds⟩ := h.within hp hc hi
    have hrest := ih hholds hle
    simp only [List.length_cons]
    omega

/-- Matches stop inside the text, and the cells that they leave hold what they may hold. -/
theorem Matches.inside (h : Matches cx p i c ms c') (hp : p.Kinded cx.rules)
    (hc : c.memory.Holds (Kinded cx.rules)) (hi : i ≤ cx.text.size) :
    lastStop i ms ≤ cx.text.size ∧ c'.memory.Holds (Kinded cx.rules) := by
  induction h with
  | nil => exact ⟨hi, hc⟩
  | cons h _ ih =>
    obtain ⟨hr, hholds⟩ := h.within hp hc hi
    exact ih hholds hr.2

theorem Matches.mayLeave (h : Matches cx p i c ms c') (hp : p.Kinded cx.rules)
    (hc : c.memory.Holds (Kinded cx.rules)) (hi : i ≤ cx.text.size)
    (hleft : p.MayLeave cx c₀ c) : p.MayLeave cx c₀ c' := by
  induction h with
  | nil => exact hleft
  | cons h _ ih =>
    obtain ⟨hr, hholds⟩ := h.within hp hc hi
    exact ih hholds hr.2 (hleft.run hi h)

/-- The matches reach the limit, or a rejection comes behind them. -/
theorem MatchesUpTo.matches (h : MatchesUpTo cx p limit i c ms c') :
    (ms.length = limit ∧ Matches cx p i c ms c') ∨
      ∃ mid why start, ms.length < limit ∧ Matches cx p i c ms mid ∧
        Evaluates cx p (lastStop i ms) mid.memory (.ok (.reject why start)) c' := by
  induction h with
  | full => exact .inl ⟨rfl, .nil⟩
  | rejected h => exact .inr ⟨_, _, _, Nat.zero_lt_succ _, .nil, h⟩
  | matched h _ ih =>
    rcases ih with ⟨hlen, hms⟩ | ⟨mid, why, start, hlt, hms, hlast⟩
    · exact .inl ⟨congrArg Nat.succ hlen, .cons h hms⟩
    · exact .inr ⟨mid, why, start, Nat.succ_lt_succ hlt, .cons h hms, hlast⟩

/-! ### Existence -/

theorem exists_strides (hp : p.Kinded cx.rules) (hreplies : p.Replies cx c₀)
    (hleft : p.MayLeave cx c₀ c) (hc : c.memory.Holds (Kinded cx.rules)) (hi : i ≤ cx.text.size) :
    ∃ ms c', Strides cx p i c ms c' := by
  induction hk : cx.text.size - i using Nat.strong_induction_on generalizing i c with
  | h k ih =>
    obtain ⟨r, c₁, h⟩ := hreplies c i hleft hi
    obtain ⟨hr, hholds⟩ := h.within hp hc hi
    cases r with
    | reject why start => exact ⟨[], c₁, .idle h (.reject why start)⟩
    | accept v stop =>
      rcases Nat.eq_or_lt_of_le hr.1 with rfl | hlt
      · exact ⟨[], c₁, .idle h (.accept v)⟩
      · have hless : cx.text.size - stop < k := by
          have := hr.2
          omega
        obtain ⟨ms, c', hs⟩ := ih _ hless (hleft.run hi h) hholds hr.2 rfl
        exact ⟨(v, stop) :: ms, c', .stride h hlt hs⟩

theorem exists_matchesUpTo (hp : p.Kinded cx.rules) (hreplies : p.Replies cx c₀)
    (hleft : p.MayLeave cx c₀ c) (hc : c.memory.Holds (Kinded cx.rules)) (hi : i ≤ cx.text.size)
    (limit : Nat) : ∃ ms c', MatchesUpTo cx p limit i c ms c' := by
  induction limit generalizing i c with
  | zero => exact ⟨[], c, .full⟩
  | succ limit ih =>
    obtain ⟨r, c₁, h⟩ := hreplies c i hleft hi
    obtain ⟨hr, hholds⟩ := h.within hp hc hi
    cases r with
    | reject why start => exact ⟨[], c₁, .rejected h⟩
    | accept v stop =>
      obtain ⟨ms, c', hs⟩ := ih (hleft.run hi h) hholds hr.2
      exact ⟨(v, stop) :: ms, c', .matched h hs⟩

end

end ParserAlgebra
