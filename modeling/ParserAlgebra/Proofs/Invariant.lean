import Mathlib
import ParserAlgebra.Evaluation

/-!
# Invariants of runs

`Run.Keeps C x Q` says that `x` leaves only parsers with property `C` in the cells of the memory if
it found only such parsers there, and that its value, if it has one, satisfies `Q`. The lemmas
follow the definitions that runs are made of; the loops take an invariant `J` of state and offset.
-/

namespace ParserAlgebra

/-- Every filled cell holds a parser with the property. -/
def Memory.Holds (C : Parser → Prop) (m : Memory) : Prop :=
  ∀ cell q, m.parserIn? cell = some q → C q

theorem Memory.Holds.fill {C : Parser → Prop} {m : Memory} {cell : Cell} {p : Parser}
    (hm : m.Holds C) (hp : C p) : (m.fill cell p).Holds C := by
  intro other q hq
  by_cases he : other = cell
  · subst he
    rw [Memory.parserIn?_fill] at hq
    cases hq
    exact hp
  · rw [Memory.parserIn?_fill_of_ne m p he] at hq
    exact hm other q hq

namespace Run

def Keeps {α : Type} (C : Parser → Prop) (x : Run α) (Q : α → Prop) : Prop :=
  ∀ m, m.Holds C → (x.exec m).2.Holds C ∧ ∀ a, (x.exec m).1 = .ok a → Q a

namespace Keeps

variable {α β : Type} {C : Parser → Prop}

theorem pure {Q : α → Prop} {a : α} (h : Q a) : Keeps C (Pure.pure a) Q := by
  intro m hm
  refine ⟨hm, fun b hb => ?_⟩
  cases hb
  exact h

theorem raise {Q : α → Prop} (f : Fault) : Keeps C (Run.raise f) Q := by
  intro m hm
  refine ⟨hm, fun b hb => ?_⟩
  cases hb

theorem exhaust {Q : α → Prop} : Keeps C Run.exhaust Q := by
  intro m hm
  refine ⟨hm, fun b hb => ?_⟩
  cases hb

theorem ofExcept {Q : α → Prop} {e : Except Fault α} (h : ∀ a, e = .ok a → Q a) :
    Keeps C (Run.ofExcept e) Q := by
  cases e with
  | ok a => exact pure (h a rfl)
  | error f => exact raise f

theorem mono {P Q : α → Prop} {x : Run α} (hx : Keeps C x P) (h : ∀ a, P a → Q a) :
    Keeps C x Q :=
  fun m hm => ⟨(hx m hm).1, fun a ha => h a ((hx m hm).2 a ha)⟩

theorem bind {P : α → Prop} {Q : β → Prop} {x : Run α} {f : α → Run β} (hx : Keeps C x P)
    (hf : ∀ a, P a → Keeps C (f a) Q) : Keeps C (x >>= f) Q := by
  intro m hm
  obtain ⟨hm', hP⟩ := hx m hm
  rw [exec_bind]
  rcases hxm : x.exec m with ⟨_ | a, m'⟩
  · rw [hxm] at hm'
    refine ⟨hm', fun b hb => ?_⟩
    cases hb
  · rw [hxm] at hm' hP
    exact hf a (hP a rfl) m' hm'

theorem write (entry : LogEntry) : Keeps C (Run.write entry) fun _ => True :=
  fun _ hm => ⟨hm, fun _ _ => trivial⟩

theorem countCall (name : String) : Keeps C (Run.countCall name) fun _ => True :=
  fun _ hm => ⟨hm, fun _ _ => trivial⟩

theorem build {Q : α → Prop} {b : Build α} (h : ∀ next, Q (b next).1) :
    Keeps C (Run.build b) Q := by
  intro m hm
  refine ⟨hm, fun a ha => ?_⟩
  cases ha
  exact h m.nextId

theorem once {cell : Cell} {make : Run Parser} (h : Keeps C make C) :
    Keeps C (Run.once cell make) C := by
  intro m hm
  cases hc : m.parserIn? cell with
  | some p =>
    rw [exec_once_of_some make hc]
    refine ⟨hm, fun q hq => ?_⟩
    cases hq
    exact hm cell p hc
  | none =>
    obtain ⟨hm', hQ⟩ := h m hm
    rcases hx : make.exec m with ⟨_ | p, m'⟩
    · rw [hx] at hm'
      simp only [Run.once, exec_bind, exec_parserIn?, hc, hx]
      refine ⟨hm', fun q hq => ?_⟩
      cases hq
    · rw [hx] at hm' hQ
      rw [exec_once_of_none hc hx]
      refine ⟨hm'.fill (hQ p rfl), fun q hq => ?_⟩
      cases hq
      exact hQ p rfl

/-! ### Sequences, choices and loops -/

theorem andThen {P Q : Reply → Prop} {x : Run Reply} {f : Value → Nat → Run Reply}
    (hx : Keeps C x P) (hr : ∀ why start, P (.reject why start) → Q (.reject why start))
    (hf : ∀ v stop, P (.accept v stop) → Keeps C (f v stop) Q) : Keeps C (x.andThen f) Q := by
  refine bind hx fun reply hp => ?_
  cases reply with
  | accept v stop => exact hf v stop hp
  | reject why start => exact pure (hr why start hp)

theorem orElse {P Q : Reply → Prop} {x y : Run Reply} (hx : Keeps C x P)
    (ha : ∀ v stop, P (.accept v stop) → Q (.accept v stop)) (hy : Keeps C y Q) :
    Keeps C (x.orElse y) Q := by
  refine bind hx fun reply hp => ?_
  cases reply with
  | accept v stop => exact pure (ha v stop hp)
  | reject why start => exact hy

theorem greedy {σ : Type} {run : Nat → Run Reply} {append : σ → Value → Except Fault σ}
    {J : σ → Nat → Prop} (hrun : ∀ s i, J s i → Keeps C (run i) fun reply =>
      ∀ v stop, reply = .accept v stop → ∀ s', append s v = .ok s' → J s' stop)
    (budget : Nat) {s : σ} {i : Nat} (h : J s i) :
    Keeps C (ParserAlgebra.greedy run append budget s i) fun r => J r.1 r.2 := by
  induction budget generalizing s i with
  | zero => exact exhaust
  | succ budget ih =>
    refine bind (hrun s i h) fun reply hJ => ?_
    cases reply with
    | reject why start => exact pure h
    | accept v stop =>
      dsimp only
      split
      · exact pure h
      · exact bind (ofExcept fun s' hs => hJ v stop rfl s' hs) fun s' hs' => ih hs'

theorem upTo {run : Nat → Run Reply} {join : Value → Value → Except Fault Value}
    {J : Value → Nat → Prop} (hrun : ∀ u i, J u i → Keeps C (run i) fun reply =>
      ∀ v stop, reply = .accept v stop → ∀ w, join u v = .ok w → J w stop)
    (more count : Nat) {u : Value} {i : Nat} (h : J u i) :
    Keeps C (ParserAlgebra.upTo run join more count u i) fun r => J r.2.1 r.2.2 := by
  induction more generalizing count u i with
  | zero => exact pure h
  | succ more ih =>
    refine bind (hrun u i h) fun reply hJ => ?_
    cases reply with
    | reject why start => exact pure h
    | accept v stop => exact bind (ofExcept fun w hw => hJ v stop rfl w hw) fun w hw => ih _ hw

theorem rounds {run : Runner} {next : Value → Except Fault Parser} {J : Value → Nat → Prop}
    {Q : Reply → Prop} (hrun : ∀ s i p, J s i → next s = .ok p → Keeps C (run p i) fun
      | .accept (.left s') stop => J s' stop
      | .accept (.right v) stop => Q (.accept v stop)
      | .accept _ _ => True
      | .reject why start => Q (.reject why start))
    (n : Nat) {s : Value} {i : Nat} (h : J s i) :
    Keeps C (ParserAlgebra.rounds run next n s i) Q := by
  induction n generalizing s i with
  | zero => exact exhaust
  | succ n ih =>
    refine bind (ofExcept fun p hp => hp) fun p hp => bind (hrun s i p h hp) fun reply hr => ?_
    cases reply with
    | reject why start => exact pure hr
    | accept v stop => cases v <;> first | exact raise _ | exact ih hr | exact pure hr

theorem step {cx : Context} {n i : Nat} {run : Runner} {p : Parser} {Q : Reply → Prop}
    (h : Keeps C (nodeReply cx n run p i) Q) : Keeps C (ParserAlgebra.step cx n run p i) Q := by
  unfold ParserAlgebra.step
  split
  · exact raise _
  · split
    · refine bind (write _) fun _ _ => bind h fun reply hr => ?_
      cases reply with
      | accept v stop => exact pure hr
      | reject why start => exact bind (write _) fun _ _ => pure hr
    · exact bind h fun reply hr => pure hr

end Keeps

end Run

end ParserAlgebra
