import ParserAlgebra.Proofs.Script

/-!
# Runs that are watched

A watched run tells, beside what it does, which functions that were given to its nodes returned,
which raised a fault, and which values had to be steps. Without what was seen it is the run.
-/

namespace ParserAlgebra

inductive Event where
  | returned
  | raised (f : Fault)
  | stepped (v : Value)

/-- What the call of a function shows. -/
def Event.ofCall {α : Type} : Except Halt α → List Event
  | .ok _ => [.returned]
  | .error (.fault f) => [.raised f]
  | .error .exhausted => []

structure Seen (α : Type) where
  outcome : Except Halt α
  memory : Memory
  events : List Event

def Watched (α : Type) := Memory → Seen α

namespace Watched

variable {α β : Type}

def bind (x : Watched α) (f : α → Watched β) : Watched β := fun m =>
  match x m with
  | ⟨.ok a, m', events⟩ =>
    let seen := f a m'
    { seen with events := events ++ seen.events }
  | ⟨.error h, m', events⟩ => ⟨.error h, m', events⟩

/-- A run in which nothing is to be seen. -/
def silent (x : Run α) : Watched α := fun m => ⟨(x.exec m).1, (x.exec m).2, []⟩

def note (event : Event) : Watched Unit := fun m => ⟨.ok (), m, [event]⟩

/-- The call of a thunk, unless the cell is filled. -/
def called (cell : Option Cell) (x : Run Parser) : Watched Parser := fun m =>
  ⟨(x.exec m).1, (x.exec m).2,
    if (cell.bind m.parserIn?).isSome then [] else Event.ofCall (x.exec m).1⟩

/-- The run without what was seen. -/
def erase (x : Watched α) : Run α := Run.ofExec fun m => ((x m).outcome, (x m).memory)

theorem erase_bind (x : Watched α) (f : α → Watched β) :
    (x.bind f).erase = x.erase >>= fun a => (f a).erase := by
  funext m
  change ((x.bind f m).outcome, (x.bind f m).memory) = (x.erase >>= fun a => (f a).erase).exec m
  rw [Run.exec_bind]
  simp only [bind, erase, Run.exec, Run.ofExec]
  rcases x m with ⟨_ | a, m', events⟩ <;> rfl

end Watched

open Watched

def Script.watch {α : Type} (rules : Rules) (n : Nat) (sub : Parser → Nat → Watched Reply) :
    Script α → Watched α
  | .done a => silent (pure a)
  | .returned rest => (note .returned).bind fun _ => rest.watch rules n sub
  | .raised f => (note (.raised f)).bind fun _ => silent (Run.raise f)
  | .run p i next => (sub p i).bind fun r => (next r).watch rules n sub
  | .call t next => (called none (t.call rules n)).bind fun p => (next p).watch rules n sub
  | .force id t next =>
    (called (some (.node id)) (Run.once (.node id) (t.call rules n))).bind fun p =>
      (next p).watch rules n sub
  | .settle v again last =>
    (note (.stepped v)).bind fun _ =>
      match v with
      | .left s => (again s).watch rules n sub
      | .right w => (last w).watch rules n sub
      | v => silent (Run.raise (.notAStep v.shown))
  | .broken f => silent (Run.raise f)
  | .exhaust => silent Run.exhaust

def announce (cx : Context) (p : Parser) (i : Nat) : Run Unit :=
  if cx.trace then Run.write (.trying p.tag i) else pure ()

def conclude (cx : Context) (p : Parser) : Reply → Run Reply
  | .accept value stop => pure (.accept value stop)
  | .reject why start =>
    (if cx.trace then Run.write (.failed p.tag start why) else pure ()) >>= fun _ =>
      pure (.reject why start)

def watchStep (cx : Context) (n : Nat) (sub : Parser → Nat → Watched Reply) (p : Parser) (i : Nat) :
    Watched Reply :=
  match p.unknownTag? with
  | some tag => silent (Run.raise (.unimplemented tag))
  | none =>
    (silent (announce cx p i)).bind fun _ =>
      ((nodeScript cx n p i).watch cx.rules n sub).bind fun reply => silent (conclude cx p reply)

def watch (cx : Context) : Nat → Parser → Nat → Watched Reply
  | 0, _, _ => silent Run.exhaust
  | n + 1, p, i => watchStep cx n (watch cx n) p i

/-! ### Erasure -/

theorem Script.erase_watch {α : Type} (rules : Rules) (n : Nat) (sub : Parser → Nat → Watched Reply)
    (s : Script α) :
    (s.watch rules n sub).erase = s.exec rules n fun p i => (sub p i).erase := by
  induction s with
  | done | raised | broken | exhaust => rfl
  | returned rest ih => rw [watch, erase_bind, ih]; rfl
  | run p i next ih => simp only [watch, exec, erase_bind, ih]
  | call t next ih => simp only [watch, exec, erase_bind, ih]; rfl
  | force id t next ih => simp only [watch, exec, erase_bind, ih]; rfl
  | settle v again last ihagain ihlast =>
    cases v with
    | left s => rw [watch, erase_bind, exec, ← ihagain]; rfl
    | right w => rw [watch, erase_bind, exec, ← ihlast]; rfl
    | _ => rfl

theorem step_eq (cx : Context) (n : Nat) (run : Runner) (p : Parser) (i : Nat) :
    step cx n run p i =
      match p.unknownTag? with
      | some tag => Run.raise (.unimplemented tag)
      | none => announce cx p i >>= fun _ => nodeReply cx n run p i >>= conclude cx p := by
  unfold step announce
  cases p.unknownTag? with
  | some tag => rfl
  | none =>
    cases ht : cx.trace with
    | false =>
      refine bind_congr fun reply => ?_
      cases reply <;> simp [conclude, ht]
    | true =>
      refine bind_congr fun _ => bind_congr fun reply => ?_
      cases reply <;> simp [conclude, ht]

theorem erase_watch (cx : Context) (n : Nat) (p : Parser) (i : Nat) :
    (watch cx n p i).erase = interpret cx n p i := by
  induction n generalizing p i with
  | zero => rfl
  | succ n ih =>
    have hsub : (fun p i => (watch cx n p i).erase) = interpret cx n := by
      funext p i
      exact ih p i
    rw [watch, interpret, watchStep, step_eq]
    split
    · rfl
    · simp only [erase_bind, Script.erase_watch, hsub, nodeReply_eq]
      rfl

end ParserAlgebra
