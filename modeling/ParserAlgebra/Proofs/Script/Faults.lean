import ParserAlgebra.Proofs.Optimizer.Linked
import ParserAlgebra.Proofs.Script.Sound
import ParserAlgebra.Proofs.Script.Watch

/-!
# Faults

No node takes a fault back, and none below a parser that constructors and combinators made brings
one up by itself. A run in which a function raised a fault ends in this fault. One in which none
did, and in which all values that had to be steps were steps, ends with a reply.
-/

namespace ParserAlgebra

open Watched

/-! ### Faults that were raised -/

/-- A fault that was raised is the outcome. -/
def Seen.Stops {α : Type} (s : Seen α) : Prop :=
  ∀ f, .raised f ∈ s.events → s.outcome = .error (.fault f)

section

variable {α β : Type} {m : Memory}

theorem Seen.Stops.bind {x : Watched α} {f : α → Watched β} (hx : (x m).Stops)
    (hf : ∀ a m', (f a m').Stops) : (x.bind f m).Stops := by
  intro g hg
  unfold Watched.bind at hg ⊢
  rcases hxm : x m with ⟨_ | a, m', events⟩
  · rw [hxm] at hx hg
    cases hx g hg
    rfl
  · rw [hxm] at hx hg
    rcases List.mem_append.1 hg with hg | hg
    · cases hx g hg
    · exact hf a m' g hg

end

/-! ### Where faults come from -/

/-- Whether a value tells how a parser that runs in rounds goes on. -/
def Value.isStep : Value → Bool
  | .left _ => true
  | .right _ => true
  | _ => false

/-- A fault is accounted for by a function that raised one or by a value that was no step. -/
structure Seen.Accounted {α : Type} (rules : Rules) (root : Parser) (Q : α → Prop) (s : Seen α) :
    Prop where
  settled : s.memory.Settled rules root
  value : ∀ a, s.outcome = .ok a → Q a
  cause : ∀ f, s.outcome = .error (.fault f) →
    (∃ g, .raised g ∈ s.events) ∨ ∃ v, .stepped v ∈ s.events ∧ v.isStep = false

section

variable {α β : Type} {rules : Rules} {root : Parser} {m : Memory}

theorem Seen.Accounted.bind {Q : α → Prop} {R : β → Prop} {x : Watched α} {f : α → Watched β}
    (hx : (x m).Accounted rules root Q)
    (hf : ∀ a m', Q a → m'.Settled rules root → (f a m').Accounted rules root R) :
    (x.bind f m).Accounted rules root R := by
  unfold Watched.bind
  obtain ⟨hsettled, hvalue, hcause⟩ := hx
  rcases hxm : x m with ⟨h | a, m', events⟩ <;> rw [hxm] at hsettled hvalue hcause
  · exact ⟨hsettled, nofun, fun f hf => hcause f (by cases hf; rfl)⟩
  · obtain ⟨hsettled', hvalue', hcause'⟩ := hf a m' (hvalue a rfl) hsettled
    refine ⟨hsettled', hvalue', fun g hg => (hcause' g hg).imp ?_ ?_⟩
    · rintro ⟨e, he⟩
      exact ⟨e, List.mem_append_right _ he⟩
    · rintro ⟨v, hv, hstep⟩
      exact ⟨v, List.mem_append_right _ hv, hstep⟩

/-- A plain thunk leaves the memory settled and the log as it was, and gives its target. -/
theorem call_settles {t : Thunk} (ht : t.Plain) (n : Nat) (hm : m.Settled rules root) :
    ((t.call rules n).exec m).2.Settled rules root ∧ ((t.call rules n).exec m).2.log = m.log ∧
      ∀ p, ((t.call rules n).exec m).1 = .ok p → t.target rules = .ok p := by
  cases n with
  | zero => exact ⟨hm, rfl, fun _ h => by cases h⟩
  | succ n =>
    cases t with
    | const p => exact ⟨hm, rfl, fun q hq => by cases hq; rfl⟩
    | rule name =>
      simp only [Thunk.call, Run.exec_bind, Run.exec_countCall, Thunk.target]
      cases rules.lookup name with
      | some p => exact ⟨⟨hm.node, hm.right⟩, rfl, fun q hq => by cases hq; rfl⟩
      | none => exact ⟨⟨hm.node, hm.right⟩, rfl, fun _ h => by cases h⟩
    | optimized => exact ht.elim

theorem once_settles {id : Nat} {t : Thunk} (hroot : root.Made rules)
    (hr : Reaches rules root (.memoized id t)) (n : Nat) (hm : m.Settled rules root) :
    ((Run.once (.node id) (t.call rules n)).exec m).2.Settled rules root ∧
      ((Run.once (.node id) (t.call rules n)).exec m).2.log = m.log ∧
      ∀ p, ((Run.once (.node id) (t.call rules n)).exec m).1 = .ok p → t.target rules = .ok p := by
  obtain ⟨hsettled, hlog, htarget⟩ := call_settles (hroot.plain hr rfl) n hm
  cases hc : m.parserIn? (.node id) with
  | some p =>
    rw [Run.exec_once_of_some _ hc]
    exact ⟨hm, rfl, fun q hq => by cases hq; exact hm.node hr hc⟩
  | none =>
    rcases hx : (t.call rules n).exec m with ⟨h | p, m'⟩ <;> rw [hx] at hsettled hlog htarget
    · simp only [Run.once, Run.exec_bind, Run.exec_parserIn?, hc, hx]
      exact ⟨hsettled, hlog, fun _ h => by cases h⟩
    · rw [Run.exec_once_of_none hc hx]
      refine ⟨hsettled.fill_node (fun hr' => hroot.single hr' hr) (htarget p rfl), hlog, ?_⟩
      exact fun q hq => by cases hq; exact htarget p rfl

end

end ParserAlgebra
