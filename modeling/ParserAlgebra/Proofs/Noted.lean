import Mathlib
import ParserAlgebra.Run

/-!
# Runs that take notes

A run with notes tells, beside what it does, what was noted on the way; notes taken before a fault
are kept. Without its notes it is a run. What the notes say of the memories before and after is put
together from what those of its parts say, as long as no part halts in a way that breaks this off.
-/

namespace ParserAlgebra

/-- How a run with notes ends. -/
structure Ending (ν α : Type) where
  outcome : Except Halt α
  memory : Memory
  notes : List ν

def Noted (ν α : Type) := Memory → Ending ν α

namespace Noted

variable {ν α β : Type}

def bind (x : Noted ν α) (f : α → Noted ν β) : Noted ν β := fun m =>
  match (x m).outcome with
  | .ok a => { f a (x m).memory with notes := (x m).notes ++ (f a (x m).memory).notes }
  | .error h => ⟨.error h, (x m).memory, (x m).notes⟩

theorem bind_of_ok {x : Noted ν α} {m : Memory} {a : α} (h : (x m).outcome = .ok a)
    (f : α → Noted ν β) : x.bind f m =
      { f a (x m).memory with notes := (x m).notes ++ (f a (x m).memory).notes } := by
  simp only [bind, h]

theorem bind_of_error {x : Noted ν α} {m : Memory} {h : Halt} (hx : (x m).outcome = .error h)
    (f : α → Noted ν β) : x.bind f m = ⟨.error h, (x m).memory, (x m).notes⟩ := by
  simp only [bind, hx]

/-- A run in which nothing is noted. -/
def silent (x : Run α) : Noted ν α := fun m => ⟨(x.exec m).1, (x.exec m).2, []⟩

def note (entry : ν) : Noted ν Unit := fun m => ⟨.ok (), m, [entry]⟩

/-- The parser in a cell, made and kept if the cell is empty; it is noted that it has to be made. -/
def once (cell : Cell) (made : ν) (make : Run Parser) : Noted ν Parser := fun m =>
  ⟨((Run.once cell make).exec m).1, ((Run.once cell make).exec m).2,
    if (m.parserIn? cell).isSome then [] else [made]⟩

/-- The run with all that it notes as one note. -/
def gathered (x : Noted ν α) : Noted (List ν) α := fun m => { x m with notes := [(x m).notes] }

/-- The run without its notes. -/
def erase (x : Noted ν α) : Run α := Run.ofExec fun m => ((x m).outcome, (x m).memory)

theorem exec_erase (x : Noted ν α) (m : Memory) :
    x.erase.exec m = ((x m).outcome, (x m).memory) := rfl

theorem erase_bind (x : Noted ν α) (f : α → Noted ν β) :
    (x.bind f).erase = x.erase >>= fun a => (f a).erase := by
  funext m
  change ((x.bind f m).outcome, (x.bind f m).memory) = (x.erase >>= fun a => (f a).erase).exec m
  rw [Run.exec_bind, exec_erase]
  cases hx : (x m).outcome with
  | ok a => rw [bind_of_ok hx]; rfl
  | error h => rw [bind_of_error hx]

theorem bind_eq_ok {x : Noted ν α} {f : α → Noted ν β} {m m'' : Memory} {b : β} {notes : List ν}
    (h : x.bind f m = ⟨.ok b, m'', notes⟩) : ∃ a m' front back, x m = ⟨.ok a, m', front⟩ ∧
      f a m' = ⟨.ok b, m'', back⟩ ∧ notes = front ++ back := by
  cases hx : (x m).outcome with
  | ok a =>
    rw [bind_of_ok hx] at h
    injection h with hb hm hn
    refine ⟨a, (x m).memory, (x m).notes, (f a (x m).memory).notes, ?_, ?_, hn.symm⟩
    · rw [← hx]
    · rw [← hb, ← hm]
  | error halt =>
    rw [bind_of_error hx] at h
    injection h with hb
    cases hb

theorem silent_eq_ok {x : Run α} {m m' : Memory} {a : α} {notes : List ν}
    (h : silent x m = ⟨.ok a, m', notes⟩) : x.exec m = (.ok a, m') ∧ notes = [] := by
  injection h with ha hm hn
  exact ⟨Prod.ext ha hm, hn.symm⟩

theorem bind_assoc {γ : Type} (x : Noted ν α) (f : α → Noted ν β) (g : β → Noted ν γ) :
    (x.bind f).bind g = x.bind fun a => (f a).bind g := by
  funext m
  cases hx : (x m).outcome with
  | error h => simp only [bind, hx]
  | ok a => cases hf : (f a (x m).memory).outcome <;> simp [bind, hx, hf]

theorem silent_pure_bind (a : α) (f : α → Noted ν β) : (silent (pure a)).bind f = f a := rfl

theorem note_bind (entry : ν) (f : Unit → Noted ν α) (m : Memory) :
    (note entry).bind f m = { f () m with notes := entry :: (f () m).notes } := rfl

theorem erase_silent (x : Run α) : (silent x : Noted ν α).erase = x := rfl

theorem erase_note (entry : ν) : (note entry).erase = pure () := rfl

theorem erase_gathered (x : Noted ν α) : x.gathered.erase = x.erase := rfl

theorem erase_once (cell : Cell) (made : ν) (make : Run Parser) :
    (once cell made make).erase = Run.once cell make := rfl

end Noted

/-! ### What notes say of memories -/

/-- A relation of the memory before, the notes, and the memory after, that goes on from one run to
the next. -/
structure Ledger (ν : Type) where
  rel : Memory → List ν → Memory → Prop
  refl : ∀ m, rel m [] m
  trans : ∀ {m m' m'' notes notes'}, rel m notes m' → rel m' notes' m'' →
    rel m (notes ++ notes') m''

/-- The relation holds at the end, unless the run halted in a way that is left out. -/
def Ending.Keeps {ν α : Type} (L : Ledger ν) (counts : Halt → Prop) (m : Memory)
    (ending : Ending ν α) : Prop :=
  (∀ h, ending.outcome = .error h → counts h) → L.rel m ending.notes ending.memory

namespace Ending.Keeps

variable {ν α β : Type} {L : Ledger ν} {counts : Halt → Prop} {m : Memory}

/-- A run that leaves the memory alone. -/
theorem still {x : Run α} (h : (x.exec m).2 = m) : (Noted.silent x m).Keeps L counts m := by
  intro _
  change L.rel m [] (x.exec m).2
  rw [h]
  exact L.refl m

theorem bind {x : Noted ν α} {f : α → Noted ν β} (hx : (x m).Keeps L counts m)
    (hf : ∀ a, (x m).outcome = .ok a → L.rel m (x m).notes (x m).memory →
      (f a (x m).memory).Keeps L counts (x m).memory) : (x.bind f m).Keeps L counts m := by
  intro hcounts
  cases ho : (x m).outcome with
  | ok a =>
    rw [Noted.bind_of_ok ho] at hcounts ⊢
    have hrel := hx fun h hh => by rw [ho] at hh; cases hh
    exact L.trans hrel (hf a ho hrel hcounts)
  | error h =>
    rw [Noted.bind_of_error ho] at hcounts ⊢
    refine hx fun h' hh => ?_
    cases ho.symm.trans hh
    exact hcounts h rfl

theorem note {entry : ν} (h : L.rel m [entry] m) : (Noted.note entry m).Keeps L counts m :=
  fun _ => h

end Ending.Keeps

end ParserAlgebra
