import ParserAlgebra.Memory

/-!
# Computations with a memory

A run ends with a value, with a fault, or as exhausted when the bound on its depth was too small to
tell; it keeps its memory in each case. `Run.exec` is the view of a run: what it does to a memory.
A construction makes nodes with fresh identities and can neither fail nor look at the memory.
-/

namespace ParserAlgebra

/-- Why a run has no answer. -/
inductive Halt where
  | fault (fault : Fault)
  | exhausted
  deriving DecidableEq

abbrev Run := ExceptT Halt (StateM Memory)

/-- A construction of nodes; its state is the next free identity. -/
abbrev Build := StateM Nat

def Build.fresh : Build Nat := fun next => (next, next + 1)

/-- What a construction builds when its identities begin at `next`. -/
def Build.result {α : Type} (next : Nat) (b : Build α) : α := (b next).1

namespace Run

variable {α β : Type}

def exec (x : Run α) (m : Memory) : Except Halt α × Memory := x m

def ofExec (f : Memory → Except Halt α × Memory) : Run α := f

def raise (f : Fault) : Run α := throw (.fault f)

/-- Ends the run without an answer. -/
def exhaust : Run α := throw .exhausted

def ofExcept : Except Fault α → Run α
  | .ok a => pure a
  | .error f => raise f

def build (b : Build α) : Run α :=
  ofExec fun m => (.ok (b m.nextId).1, { m with nextId := (b m.nextId).2 })

def countCall (name : String) : Run Unit := ofExec fun m => (.ok (), m.countCall name)

def write (entry : LogEntry) : Run Unit := ofExec fun m => (.ok (), m.write entry)

def fill (cell : Cell) (p : Parser) : Run Unit := ofExec fun m => (.ok (), m.fill cell p)

def parserIn? (cell : Cell) : Run (Option Parser) := ofExec fun m => (.ok (m.parserIn? cell), m)

/-- The parser in a cell, made and kept if the cell is empty. -/
def once (cell : Cell) (make : Run Parser) : Run Parser := do
  match ← parserIn? cell with
  | some p => pure p
  | none =>
    let p ← make
    fill cell p
    pure p

/-! ### Effects -/

@[simp] theorem exec_pure (a : α) (m : Memory) : (pure a : Run α).exec m = (.ok a, m) := rfl

theorem exec_bind (x : Run α) (f : α → Run β) (m : Memory) :
    (x >>= f).exec m =
      match x.exec m with
      | (.ok a, m') => (f a).exec m'
      | (.error h, m') => (.error h, m') := by
  simp only [exec, bind, ExceptT.bind, ExceptT.mk, StateT.bind]
  rcases x m with ⟨_ | _, _⟩ <;> rfl

theorem exec_bind_ok {x : Run α} {f : α → Run β} {m m' : Memory} {b : β}
    (h : (x >>= f).exec m = (.ok b, m')) :
    ∃ a m₁, x.exec m = (.ok a, m₁) ∧ (f a).exec m₁ = (.ok b, m') := by
  rw [exec_bind] at h
  rcases hx : x.exec m with ⟨halt | a, m₁⟩
  · rw [hx] at h
    cases h
  · rw [hx] at h
    exact ⟨a, m₁, rfl, h⟩

@[simp] theorem exec_raise (f : Fault) (m : Memory) :
    (raise f : Run α).exec m = (.error (.fault f), m) := rfl

@[simp] theorem exec_exhaust (m : Memory) :
    (exhaust : Run α).exec m = (.error .exhausted, m) := rfl

@[simp] theorem exec_ofExcept_ok (a : α) (m : Memory) :
    (ofExcept (.ok a)).exec m = (.ok a, m) := rfl

@[simp] theorem exec_ofExcept_error (f : Fault) (m : Memory) :
    (ofExcept (.error f) : Run α).exec m = (.error (.fault f), m) := rfl

@[simp] theorem exec_build (b : Build α) (m : Memory) :
    (build b).exec m = (.ok (b m.nextId).1, { m with nextId := (b m.nextId).2 }) := rfl

@[simp] theorem exec_countCall (name : String) (m : Memory) :
    (countCall name).exec m = (.ok (), m.countCall name) := rfl

@[simp] theorem exec_write (entry : LogEntry) (m : Memory) :
    (write entry).exec m = (.ok (), m.write entry) := rfl

@[simp] theorem exec_fill (cell : Cell) (p : Parser) (m : Memory) :
    (fill cell p).exec m = (.ok (), m.fill cell p) := rfl

@[simp] theorem exec_parserIn? (cell : Cell) (m : Memory) :
    (parserIn? cell).exec m = (.ok (m.parserIn? cell), m) := rfl

theorem exec_once_of_some {cell : Cell} {p : Parser} {m : Memory} (make : Run Parser)
    (h : m.parserIn? cell = some p) : (once cell make).exec m = (.ok p, m) := by
  simp [once, exec_bind, h]

theorem exec_once_of_none {cell : Cell} {p : Parser} {m m' : Memory} {make : Run Parser}
    (h : m.parserIn? cell = none) (hp : make.exec m = (.ok p, m')) :
    (once cell make).exec m = (.ok p, m'.fill cell p) := by
  simp only [once, exec_bind, exec_parserIn?, h, hp, exec_fill, exec_pure]

/-- What was given from an empty cell was made for it. -/
theorem exec_once_ok {cell : Cell} {p : Parser} {m m' : Memory} {make : Run Parser}
    (h : m.parserIn? cell = none) (hp : (once cell make).exec m = (.ok p, m')) :
    ∃ m₁, make.exec m = (.ok p, m₁) ∧ m' = m₁.fill cell p := by
  rcases hx : make.exec m with ⟨halt | q, m₁⟩
  · simp only [once, exec_bind, exec_parserIn?, h, hx] at hp
    cases hp
  · rw [exec_once_of_none h hx] at hp
    cases hp
    exact ⟨m₁, rfl, rfl⟩

end Run

end ParserAlgebra
