import ParserAlgebra.Proofs.Termination
import ParserAlgebra.Proofs.Translation
import ParserAlgebra.Proofs.Yields

/-!
# Matches in a row

A parser that consumes something wherever it succeeds matches a finite series of times in a row, up
to the first rejection or fault. A loop that runs such a parser, or one that does the same with
other values, goes through this series whatever state it adds the values to, and does so within any
number of rounds that is larger than the length of the text ahead.
-/

namespace ParserAlgebra

open Run (Yields Steady Growing)

/-! ### Parsers that advance -/

/-- The cells that runs of a parser on the text may leave, one run after the other. -/
inductive Parser.MayLeave (cx : Context) (p : Parser) (c : Cells) : Cells → Prop
  | start : MayLeave cx p c c
  | run {c' c'' : Cells} {i : Nat} {o : Except Fault Reply} (h : MayLeave cx p c c')
      (hi : i ≤ cx.text.size) (hrun : Evaluates cx p i c'.memory o c'') : MayLeave cx p c c''

/-- Wherever the parser succeeds, it has consumed something that is in the text. -/
def Parser.Advances (cx : Context) (p : Parser) (c : Cells) : Prop :=
  ∀ c' c'' i v stop, p.MayLeave cx c c' → i ≤ cx.text.size →
    Evaluates cx p i c'.memory (.ok (.accept v stop)) c'' → i < stop ∧ stop ≤ cx.text.size

theorem Reply.shift_zero (r : Reply) : r.shift 0 = r := by
  cases r with
  | accept v stop => rw [Reply.shift, Nat.zero_add]
  | reject why start => cases why <;> simp only [Reply.shift, Reason.shift, Nat.zero_add]

/-- What a parser yields from a settled memory it yields from the empty one. -/
theorem Parser.Made.evaluates {cx : Context} {p : Parser} (hp : p.Made cx.rules) {m : Memory}
    (hm : m.Settled cx.rules p) {i : Nat} {o : Except Fault Reply} {c : Cells}
    (h : Evaluates cx p i m o c) : c.memory.Settled cx.rules p ∧
      ∃ k, ((interpret cx k p i).exec {}).1 = Run.ended o := by
  have htext : Suffix 0 cx.text cx.text := ⟨(Nat.zero_add _).symm, fun i => by rw [Nat.zero_add]⟩
  obtain ⟨k, ho, rfl⟩ := h
  obtain ⟨hleft, -, he⟩ := interpret_mirrors htext hp cx.trace k i .refl m {} hm (.empty _ p)
  refine ⟨⟨hleft.node, hleft.right⟩, k, ?_⟩
  rw [Nat.zero_add, ho] at he
  rw [he]
  cases o with
  | ok reply => exact congrArg Except.ok reply.shift_zero
  | error f => rfl

/-- The matches of a parser one after the other from an offset on: their values, the offset where
they end, the fault of the attempt that ends them if it does not reject, and the cells then. -/
inductive Series (cx : Context) (p : Parser) :
    Nat → Cells → List Value → Nat → Option Fault → Cells → Prop
  | rejected {i start : Nat} {c c' : Cells} {why : Reason}
      (h : Evaluates cx p i c.memory (.ok (.reject why start)) c') :
      Series cx p i c [] i none c'
  | raised {i : Nat} {c c' : Cells} {f : Fault} (h : Evaluates cx p i c.memory (.error f) c') :
      Series cx p i c [] i (some f) c'
  | matched {i stop last : Nat} {c c' c'' : Cells} {v : Value} {vs : List Value}
      {e : Option Fault} (h : Evaluates cx p i c.memory (.ok (.accept v stop)) c')
      (hrest : Series cx p stop c' vs last e c'') : Series cx p i c (v :: vs) last e c''

/-- Every run of the parser ends. -/
def Parser.Ends (cx : Context) (p : Parser) (c : Cells) : Prop :=
  ∀ c' i, p.MayLeave cx c c' → i ≤ cx.text.size → ∃ o c'', Evaluates cx p i c'.memory o c''

/-- The parser `q` runs as `p` does, with the values under `f`. -/
structure Echoes (cx : Context) (f : Value → Value) (p q : Parser) : Prop where
  error : ∀ {i : Nat} {m : Memory} {e : Fault} {c : Cells},
    Evaluates cx q i m (.error e) c ↔ Evaluates cx p i m (.error e) c
  reject : ∀ {i start : Nat} {m : Memory} {why : Reason} {c : Cells},
    Evaluates cx q i m (.ok (.reject why start)) c ↔
      Evaluates cx p i m (.ok (.reject why start)) c
  accept : ∀ {i stop : Nat} {m : Memory} {u : Value} {c : Cells},
    Evaluates cx q i m (.ok (.accept u stop)) c ↔
      ∃ v, u = f v ∧ Evaluates cx p i m (.ok (.accept v stop)) c

theorem Echoes.refl (cx : Context) (p : Parser) : Echoes cx (fun v => v) p p :=
  ⟨Iff.rfl, Iff.rfl, by simp⟩

/-- What a map yields by way of what its source yields. -/
theorem evaluates_map {cx : Context} {p : Parser} {id : Nat} {fn : Transform} {f : Value → Value}
    (hf : ∀ v, fn.apply v = .ok (f v)) {i : Nat} {m : Memory} {o : Except Fault Reply} {c : Cells}
    (h : Evaluates cx (.map id p fn) i m o c) :
    (∃ e, o = .error e ∧ Evaluates cx p i m (.error e) c) ∨
      (∃ why start, o = .ok (.reject why start) ∧
        Evaluates cx p i m (.ok (.reject why start)) c) ∨
      ∃ v stop, o = .ok (.accept (f v) stop) ∧ Evaluates cx p i m (.ok (.accept v stop)) c := by
  rw [evaluates_iff rfl] at h
  rcases Yields.andThen_cases (fun v stop => .bind (.ofExcept _) fun u => .pure _) h with
    herror | hreject | ⟨v, stop, c', hx, hrest⟩
  · exact .inl herror
  · exact .inr (.inl hreject)
  · rw [hf v] at hrest
    obtain ⟨rfl, rfl⟩ := Yields.pure_iff.1 hrest
    exact .inr (.inr ⟨v, stop, rfl, hx⟩)

theorem Echoes.map (cx : Context) (p : Parser) (id : Nat) {fn : Transform} {f : Value → Value}
    (hf : ∀ v, fn.apply v = .ok (f v)) : Echoes cx f p (.map id p fn) := by
  have hgrow : ∀ i, Growing fun k => interpret cx k p i := fun i =>
    (interpret_steady cx p i).growing
  refine ⟨fun {i m e c} => ⟨fun h => ?_, fun h => ?_⟩,
    fun {i start m why c} => ⟨fun h => ?_, fun h => ?_⟩,
    fun {i stop m u c} => ⟨fun h => ?_, ?_⟩⟩
  · rcases evaluates_map hf h with ⟨_, he, hx⟩ | ⟨_, _, ho, _⟩ | ⟨_, _, ho, _⟩
    · cases he
      exact hx
    · cases ho
    · cases ho
  · exact (evaluates_iff rfl).2 (.andThen_error h)
  · rcases evaluates_map hf h with ⟨_, ho, _⟩ | ⟨_, _, ho, hx⟩ | ⟨_, _, ho, _⟩
    · cases ho
    · cases ho
      exact hx
    · cases ho
  · exact (evaluates_iff rfl).2 (.andThen_reject (hgrow i) h)
  · rcases evaluates_map hf h with ⟨_, ho, _⟩ | ⟨_, _, ho, _⟩ | ⟨v, _, ho, hx⟩
    · cases ho
    · cases ho
    · cases ho
      exact ⟨v, rfl, hx⟩
  · rintro ⟨v, rfl, hx⟩
    have hafter : Steady fun _ : Nat =>
        Run.ofExcept (fn.apply v) >>= fun u => pure (Reply.accept u stop) :=
      .bind (.ofExcept _) fun u => .pure _
    refine (evaluates_iff rfl).2 (.andThen_accept (hgrow i) hafter hx ?_)
    rw [hf v]
    exact Yields.pure_iff.2 ⟨rfl, rfl⟩

/-! ### Loops over a series -/

/-- What a loop that made `r` of a series ends with. -/
def endedBy {ρ : Type} (r : ρ) : Option Fault → Except Fault ρ
  | none => .ok r
  | some f => .error f

/-- A loop that runs the parser `q` in each round and adds what it finds to its state until `q`
rejects. The first argument of `run` is the number of rounds allowed, the last one the bound. -/
structure Looping (cx : Context) (q : Parser) (σ ρ : Type) where
  run : Nat → σ → Nat → Nat → Run ρ
  after : Nat → σ → Nat → Nat → Reply → Run ρ
  take : σ → Value → Except Fault σ
  result : σ → Nat → ρ
  round : ∀ b s i k, run (b + 1) s i k = interpret cx k q i >>= after b s i k
  reject : ∀ b s i k why start, after b s i k (.reject why start) = pure (result s i)
  accept : ∀ b s i k v stop, stop ≠ i → after b s i k (.accept v stop) =
    Run.ofExcept (take s v) >>= fun s' => run b s' stop k
  steady : ∀ b s i reply, Steady fun k => after b s i k reply
  growing : ∀ b s i, Growing (run b s i)

namespace Looping

variable {cx : Context} {p q : Parser} {σ ρ : Type} {f : Value → Value} {h : List Value → σ}
  {c₀ : Cells}

/-- The loop goes through the series of `p` if `q` runs as `p` does. -/
theorem series (loop : Looping cx q σ ρ) (hp : p.Advances cx c₀) (hq : Echoes cx f p q)
    (htake : ∀ us v, loop.take (h us) (f v) = .ok (h (us ++ [v]))) {b i : Nat} {us : List Value}
    {c c' : Cells} {o : Except Fault ρ} (hc : p.MayLeave cx c₀ c) (hi : i ≤ cx.text.size)
    (hb : cx.text.size - i < b) (hrun : Yields (loop.run b (h us) i) c.memory o c') :
    ∃ vs last e, Series cx p i c vs last e c' ∧
      o = endedBy (loop.result (h (us ++ vs)) last) e := by
  induction b generalizing i us c with
  | zero => exact absurd hb (Nat.not_lt_zero _)
  | succ b ih =>
    rw [Yields.congr (loop.round b (h us) i)] at hrun
    rcases Yields.bind_cases (loop.steady b (h us) i) hrun with
      ⟨e, rfl, hx⟩ | ⟨reply, c₁, hx, hrest⟩
    · exact ⟨[], i, some e, .raised (hq.error.1 hx), rfl⟩
    · cases reply with
      | reject why start =>
        rw [Yields.congr fun k => loop.reject b (h us) i k why start] at hrest
        obtain ⟨rfl, rfl⟩ := Yields.pure_iff.1 hrest
        exact ⟨[], i, none, .rejected (hq.reject.1 hx), by rw [List.append_nil]; rfl⟩
      | accept u stop =>
        obtain ⟨v, rfl, hv⟩ := hq.accept.1 hx
        obtain ⟨hlt, hle⟩ := hp c c₁ i v stop hc hi hv
        rw [Yields.congr fun k => loop.accept b (h us) i k (f v) stop hlt.ne', htake us v] at hrest
        obtain ⟨vs, last, e, hseries, rfl⟩ := ih (hc.run hi hv) hle (by omega) hrest
        refine ⟨v :: vs, last, e, .matched hv hseries, ?_⟩
        rw [List.append_assoc, List.singleton_append]

/-- A greedy loop. -/
def greedy (cx : Context) (q : Parser) (append : σ → Value → Except Fault σ) :
    Looping cx q σ (σ × Nat) where
  run b s i k := ParserAlgebra.greedy (interpret cx k q) append b s i
  after b s i k
    | .reject _ _ => pure (s, i)
    | .accept v stop =>
      if stop = i then pure (s, i)
      else Run.ofExcept (append s v) >>= fun s' =>
        ParserAlgebra.greedy (interpret cx k q) append b s' stop
  take := append
  result s i := (s, i)
  round b s i k := rfl
  reject b s i k why start := rfl
  accept b s i k v stop h := if_neg h
  steady b s i
    | .reject _ _ => .pure _
    | .accept v stop => by
      dsimp only
      split
      · exact .pure _
      · exact .bind (.ofExcept _) fun s' => .greedy (interpret_steady cx q) append b s' stop
  growing b s i := (Steady.greedy (interpret_steady cx q) append b s i).growing

/-- A loop that counts its rounds. -/
def upTo (cx : Context) (q : Parser) (join : Value → Value → Except Fault Value) :
    Looping cx q (Nat × Value) (Nat × Value × Nat) where
  run b s i k := ParserAlgebra.upTo (interpret cx k q) join b s.1 s.2 i
  after b s i k
    | .reject _ _ => pure (s.1, s.2, i)
    | .accept v stop => Run.ofExcept (join s.2 v) >>= fun u =>
        ParserAlgebra.upTo (interpret cx k q) join b (s.1 + 1) u stop
  take s v := (join s.2 v).map fun u => (s.1 + 1, u)
  result s i := (s.1, s.2, i)
  round b s i k := rfl
  reject b s i k why start := rfl
  accept b s i k v stop h := by
    dsimp only
    cases join s.2 v <;> rfl
  steady b s i
    | .reject _ _ => .pure _
    | .accept v stop =>
      .bind (.ofExcept _) fun u => .upTo (interpret_steady cx q) join b (s.1 + 1) u stop
  growing b s i := (Steady.upTo (interpret_steady cx q) join b s.1 s.2 i).growing

end Looping

end ParserAlgebra
